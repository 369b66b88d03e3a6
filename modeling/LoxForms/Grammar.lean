import LoxForms.TokenKind
/-!
# The grammar of Lox

The productions of the language, together with the tree that each of them
stands for. A production's `slots` say at once which symbols it reads and which
children they give: a token is kept as a leaf or dropped, a phrase hands over
the children it has made, and an optional phrase that is missing leaves an
absent child. Its `shape` says what becomes of these children.

`Nonterminal.follow` lists the kinds of token that can come right after a
phrase. Every production is finished in one state of the automaton only, so
these sets are all the lookahead that its reductions need.
-/

namespace LoxForms

/-- The rules that name a node of a tree. -/
inductive Rule where
  | start | classDecl | superclass | function | parameters | varDecl
  | exprStmt | forStmt | forInitializer | ifStmt | printStmt | returnStmt | whileStmt | block
  | assign | logicOr | logicAnd | equality | comparison | term | factor | unary
  | call | get | arguments
  | trueLiteral | falseLiteral | nilLiteral | thisWord | number | string
  | variableName | grouping | superExpr
deriving DecidableEq, Repr

namespace Rule

def name : Rule → String
  | start => "start" | classDecl => "class_decl" | superclass => "superclass"
  | function => "function" | parameters => "parameters" | varDecl => "var_decl"
  | exprStmt => "expr_stmt" | forStmt => "for_stmt" | forInitializer => "for_initializer"
  | ifStmt => "if_stmt" | printStmt => "print_stmt" | returnStmt => "return_stmt"
  | whileStmt => "while_stmt" | block => "block"
  | assign => "assign" | logicOr => "logic_or" | logicAnd => "logic_and"
  | equality => "equality" | comparison => "comparison" | term => "term" | factor => "factor"
  | unary => "unary" | call => "call" | get => "get" | arguments => "arguments"
  | trueLiteral => "true" | falseLiteral => "false" | nilLiteral => "nil" | thisWord => "this"
  | number => "number" | string => "string" | variableName => "variable"
  | grouping => "grouping" | superExpr => "super_expr"

def all : List Rule :=
  [start, classDecl, superclass, function, parameters, varDecl,
   exprStmt, forStmt, forInitializer, ifStmt, printStmt, returnStmt, whileStmt, block,
   assign, logicOr, logicAnd, equality, comparison, term, factor, unary,
   call, get, arguments,
   trueLiteral, falseLiteral, nilLiteral, thisWord, number, string,
   variableName, grouping, superExpr]

def ofName? (s : String) : Option Rule := all.find? (·.name = s)

/-- **A name leads back to its rule.** -/
theorem ofName?_name (r : Rule) : ofName? r.name = some r := by
  cases r <;> decide +kernel

end Rule

/-- The name of a node: one of the rules above, or any other name. -/
inductive Label where
  | rule (r : Rule)
  | other (name : String)
deriving DecidableEq, Repr

namespace Label

def name : Label → String
  | rule r => r.name
  | other s => s

/-- A rule's name always means the rule. -/
def ofName (s : String) : Label :=
  match Rule.ofName? s with
  | some r => rule r
  | none => other s

theorem name_ofName (s : String) : (ofName s).name = s := by
  unfold ofName
  split
  · rename_i r h
    unfold Rule.ofName? at h
    have named := List.find?_some h
    exact of_decide_eq_true named
  · rfl

end Label

/-- The phrases of the grammar. The `more…` and `…Tail` ones are the second
and later elements of a list, the plural ones are whole lists. -/
inductive Nonterminal where
  | program | declarations | declaration
  | classDecl | methods | superclass | funDecl | function | parameters | moreParameters
  | varDecl | statement | exprStmt | forStmt | forInitializer | ifStmt | printStmt
  | returnStmt | whileStmt | block
  | expression | assignment | logicOr | orTail | logicAnd | andTail
  | equality | equalityTail | comparison | comparisonTail | term | termTail
  | factor | factorTail | unary | callChain | arguments | moreArguments | primary
deriving DecidableEq, Repr

namespace Nonterminal

def all : List Nonterminal :=
  [program, declarations, declaration,
   classDecl, methods, superclass, funDecl, function, parameters, moreParameters,
   varDecl, statement, exprStmt, forStmt, forInitializer, ifStmt, printStmt,
   returnStmt, whileStmt, block,
   expression, assignment, logicOr, orTail, logicAnd, andTail,
   equality, equalityTail, comparison, comparisonTail, term, termTail,
   factor, factorTail, unary, callChain, arguments, moreArguments, primary]

theorem mem_all (n : Nonterminal) : n ∈ all := by cases n <;> decide

end Nonterminal

/-- What a phrase is made of. -/
inductive Atom where
  | token (k : TokenKind)
  | phrase (n : Nonterminal)
deriving DecidableEq, Repr

/-- One place on the right of a production. -/
inductive Slot where
  /-- A token that becomes a leaf. -/
  | keep (k : TokenKind)
  /-- A token that the tree does without. -/
  | drop (k : TokenKind)
  /-- A phrase, whose children take its place. -/
  | phrase (n : Nonterminal)
  /-- An optional phrase that is missing: it reads nothing, and leaves an
  absent child. -/
  | absent
deriving DecidableEq, Repr

/-- What a slot reads. -/
def Slot.atom? : Slot → Option Atom
  | keep k | drop k => some (.token k)
  | phrase n => some (.phrase n)
  | absent => none

/-- What becomes of the children of a production. -/
inductive Shape where
  /-- They are the children of one node. -/
  | node (label : Label)
  /-- The same, except that a single child stands for itself. -/
  | nodeUnlessSingle (label : Label)
  /-- They go to the enclosing phrase as they are. -/
  | splice
deriving DecidableEq, Repr

structure Production where
  phrase : Nonterminal
  slots : List Slot
  shape : Shape
deriving DecidableEq, Repr

namespace Production

/-- The symbols that a production reads, in order. -/
def atoms (p : Production) : List Atom := p.slots.filterMap Slot.atom?

def arity (p : Production) : Nat := p.atoms.length

end Production

namespace Grammar

open Slot

/-- A phrase that gives one node of a rule's name. -/
def named (n : Nonterminal) (r : Rule) (slots : List Slot) : Production :=
  ⟨n, slots, .node (.rule r)⟩

/-- A phrase that is one of several others and leaves no trace of its own. -/
def oneOf (n : Nonterminal) (name : String) (alternatives : List Nonterminal) :
    List Production :=
  alternatives.map fun a => ⟨n, [phrase a], .nodeUnlessSingle (.other name)⟩

/-- A list of one or more phrases, longer lists growing at the right. -/
def listOf (n : Nonterminal) (element : List Slot) : List Production :=
  [⟨n, element, .splice⟩, ⟨n, phrase n :: element, .splice⟩]

/-- A level of binary operators that bind alike: an operand alone, or several
with operators between them, all in one node. -/
def level (n : Nonterminal) (r : Rule) (operand tail : Nonterminal)
    (operators : List TokenKind) : List Production :=
  [⟨n, [phrase operand, phrase tail], .nodeUnlessSingle (.rule r)⟩,
   ⟨n, [phrase operand], .nodeUnlessSingle (.rule r)⟩] ++
  operators.map (fun k => ⟨tail, [keep k, phrase operand], .splice⟩) ++
  operators.map (fun k => ⟨tail, [phrase tail, keep k, phrase operand], .splice⟩)

def declarationRules : List Production :=
  [named .program .start [phrase .declarations],
   named .program .start []] ++
  listOf .declarations [phrase .declaration] ++
  oneOf .declaration "declaration" [.classDecl, .funDecl, .varDecl, .statement] ++
  [named .classDecl .classDecl
     [drop .classWord, keep .identifier, phrase .superclass,
      drop .leftBrace, phrase .methods, drop .rightBrace],
   named .classDecl .classDecl
     [drop .classWord, keep .identifier, phrase .superclass, drop .leftBrace, drop .rightBrace],
   named .classDecl .classDecl
     [drop .classWord, keep .identifier, absent,
      drop .leftBrace, phrase .methods, drop .rightBrace],
   named .classDecl .classDecl
     [drop .classWord, keep .identifier, absent, drop .leftBrace, drop .rightBrace]] ++
  listOf .methods [phrase .function] ++
  [named .superclass .superclass [drop .less, keep .identifier],
   ⟨.funDecl, [drop .funWord, phrase .function], .nodeUnlessSingle (.other "fun_decl")⟩,
   named .function .function
     [keep .identifier, drop .leftParen, phrase .parameters, drop .rightParen, phrase .block],
   named .function .function
     [keep .identifier, drop .leftParen, absent, drop .rightParen, phrase .block],
   named .parameters .parameters [keep .identifier, phrase .moreParameters],
   named .parameters .parameters [keep .identifier]] ++
  listOf .moreParameters [drop .comma, keep .identifier] ++
  [named .varDecl .varDecl
     [drop .varWord, keep .identifier, drop .equal, phrase .expression, drop .semicolon],
   named .varDecl .varDecl [drop .varWord, keep .identifier, absent, drop .semicolon]]

def statementRules : List Production :=
  oneOf .statement "statement"
    [.exprStmt, .forStmt, .ifStmt, .printStmt, .returnStmt, .whileStmt, .block] ++
  [named .exprStmt .exprStmt [phrase .expression, drop .semicolon],
   named .forStmt .forStmt
     [drop .forWord, drop .leftParen, phrase .forInitializer, phrase .expression,
      drop .semicolon, phrase .expression, drop .rightParen, phrase .statement],
   named .forStmt .forStmt
     [drop .forWord, drop .leftParen, phrase .forInitializer, phrase .expression,
      drop .semicolon, absent, drop .rightParen, phrase .statement],
   named .forStmt .forStmt
     [drop .forWord, drop .leftParen, phrase .forInitializer, absent,
      drop .semicolon, phrase .expression, drop .rightParen, phrase .statement],
   named .forStmt .forStmt
     [drop .forWord, drop .leftParen, phrase .forInitializer, absent,
      drop .semicolon, absent, drop .rightParen, phrase .statement],
   named .forInitializer .forInitializer [phrase .varDecl],
   named .forInitializer .forInitializer [phrase .exprStmt],
   named .forInitializer .forInitializer [drop .semicolon],
   named .ifStmt .ifStmt
     [drop .ifWord, drop .leftParen, phrase .expression, drop .rightParen, phrase .statement,
      drop .elseWord, phrase .statement],
   named .ifStmt .ifStmt
     [drop .ifWord, drop .leftParen, phrase .expression, drop .rightParen, phrase .statement,
      absent],
   named .printStmt .printStmt [drop .printWord, phrase .expression, drop .semicolon],
   named .returnStmt .returnStmt [drop .returnWord, phrase .expression, drop .semicolon],
   named .returnStmt .returnStmt [drop .returnWord, absent, drop .semicolon],
   named .whileStmt .whileStmt
     [drop .whileWord, drop .leftParen, phrase .expression, drop .rightParen,
      phrase .statement],
   named .block .block [drop .leftBrace, phrase .declarations, drop .rightBrace],
   named .block .block [drop .leftBrace, drop .rightBrace]]

def operatorRules : List Production :=
  oneOf .expression "expression" [.assignment] ++
  [named .assignment .assign [phrase .logicOr, drop .equal, phrase .assignment]] ++
  oneOf .assignment "assignment" [.logicOr] ++
  level .logicOr .logicOr .logicAnd .orTail [.orWord] ++
  level .logicAnd .logicAnd .equality .andTail [.andWord] ++
  level .equality .equality .comparison .equalityTail [.bangEqual, .equalEqual] ++
  level .comparison .comparison .term .comparisonTail
    [.greater, .greaterEqual, .less, .lessEqual] ++
  level .term .term .factor .termTail [.minus, .plus] ++
  level .factor .factor .unary .factorTail [.slash, .star] ++
  [named .unary .unary [keep .bang, phrase .unary],
   named .unary .unary [keep .minus, phrase .unary],
   ⟨.unary, [phrase .callChain], .nodeUnlessSingle (.rule .unary)⟩]

def primaryRules : List Production :=
  oneOf .callChain "call_chain" [.primary] ++
  [named .callChain .call
     [phrase .callChain, drop .leftParen, phrase .arguments, drop .rightParen],
   named .callChain .call [phrase .callChain, drop .leftParen, absent, drop .rightParen],
   named .callChain .get [phrase .callChain, drop .dot, keep .identifier],
   named .arguments .arguments [phrase .expression, phrase .moreArguments],
   named .arguments .arguments [phrase .expression]] ++
  listOf .moreArguments [drop .comma, phrase .expression] ++
  [named .primary .trueLiteral [drop .trueWord],
   named .primary .falseLiteral [drop .falseWord],
   named .primary .nilLiteral [drop .nilWord],
   named .primary .thisWord [drop .thisWord],
   named .primary .number [keep .number],
   named .primary .string [keep .string],
   named .primary .variableName [keep .identifier],
   named .primary .grouping [drop .leftParen, phrase .expression, drop .rightParen],
   named .primary .superExpr [drop .superWord, drop .dot, keep .identifier]]

/-- The whole grammar. The automaton refers to a production by its place here. -/
def productions : Array Production :=
  (declarationRules ++ statementRules ++ operatorRules ++ primaryRules).toArray

theorem size_productions : productions.size = 106 := by decide +kernel

end Grammar

namespace Nonterminal

/-- The kinds that can begin an expression. -/
def expressionStarts : List TokenKind :=
  [.bang, .falseWord, .identifier, .leftParen, .minus, .nilWord, .number, .string,
   .superWord, .thisWord, .trueWord]

/-- The kinds that can begin a statement. -/
def statementStarts : List TokenKind :=
  [TokenKind.forWord, .ifWord, .leftBrace, .printWord, .returnWord, .whileWord] ++ expressionStarts

/-- The kinds that can come after a whole declaration: the start of the next
one, the brace that closes a block, or the end of the text. -/
def afterDeclaration : List TokenKind :=
  [TokenKind.endOfText, .rightBrace, .classWord, .funWord, .varWord] ++ statementStarts

def afterExpression : List TokenKind := [.comma, .rightParen, .semicolon]

def afterOr : List TokenKind := .equal :: afterExpression

def afterAnd : List TokenKind := .orWord :: afterOr

def afterEquality : List TokenKind := .andWord :: afterAnd

def afterComparison : List TokenKind := [TokenKind.bangEqual, .equalEqual] ++ afterEquality

def afterTerm : List TokenKind :=
  [TokenKind.greater, .greaterEqual, .less, .lessEqual] ++ afterComparison

def afterFactor : List TokenKind := [TokenKind.minus, .plus] ++ afterTerm

def afterUnary : List TokenKind := [TokenKind.slash, .star] ++ afterFactor

def afterPrimary : List TokenKind := [TokenKind.dot, .leftParen] ++ afterUnary

/-- The kinds of token that can come right after a phrase. -/
def follow : Nonterminal → List TokenKind
  | program => [.endOfText]
  | declarations | declaration | classDecl | funDecl | function => afterDeclaration
  | methods => [.identifier, .rightBrace]
  | superclass => [.leftBrace]
  | parameters | arguments => [.rightParen]
  | moreParameters | moreArguments => [.comma, .rightParen]
  | varDecl => .semicolon :: afterDeclaration
  | statement | forStmt | ifStmt | printStmt | returnStmt | whileStmt | block =>
      .elseWord :: afterDeclaration
  | exprStmt => .semicolon :: .elseWord :: afterDeclaration
  | forInitializer => .semicolon :: expressionStarts
  | expression | assignment => afterExpression
  | logicOr => afterOr
  | orTail | logicAnd => afterAnd
  | andTail | equality => afterEquality
  | equalityTail | comparison => afterComparison
  | comparisonTail | term => afterTerm
  | termTail | factor => afterFactor
  | factorTail | unary => afterUnary
  | callChain | primary => afterPrimary

end Nonterminal

end LoxForms
