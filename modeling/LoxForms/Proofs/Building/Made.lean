import LoxForms.Proofs.Writing.Normal
/-!
# What programs are made of

The expressions and statements that texts stand for. Every field holds what its
place takes: names are words, operators are of the kinds that their nodes have,
and lists hold nodes of one sort. `Fits` tells for each phrase of the grammar
which values it has.

Nothing is said of how tightly operands hold together, as in `NormalExpression`:
this is about the sorts of values only. What is known of the names that are
looked up and of the values of literals is left open (`Terms`).
-/

namespace LoxForms

/-- What is known of the terms of a program that stand for a value each. -/
structure Terms where
  /-- What is known of the names of variables that are looked up. -/
  lookedUp : String → Prop
  /-- What is known of the values of numbers and strings. -/
  denoted : Value → Prop

namespace TokenKind

def unaryOperators : List TokenKind := [bang, minus]

def logicalOperators : List TokenKind := [orWord, andWord]

def binaryOperators : List TokenKind :=
  [bangEqual, equalEqual, greater, greaterEqual, less, lessEqual, minus, plus, slash, star]

end TokenKind

namespace Value

/-- A token for a word, which can be a reserved one. -/
def IsWordToken (v : Value) : Prop :=
  ∃ lexeme line, Lexeme.IsWord lexeme.toList ∧ v = token .identifier lexeme nil line

/-- A token for one of several operators. -/
def IsOperatorOf (ks : List TokenKind) (v : Value) : Prop := ∃ k ∈ ks, IsOperator k v

def IsFunction (v : Value) : Prop := ∃ name params body, v = functionDeclaration name params body

/-- What a superclass is given by, if there is one. -/
def IsBase (v : Value) : Prop := v = nil ∨ ∃ name, v = variableName name ∧ IsWordToken name

/-- The expressions that texts stand for. -/
inductive MadeExpression (T : Terms) : Value → Prop
  | nil : MadeExpression T (literal nil)
  | bool (b : Bool) : MadeExpression T (literal (bool b))
  | literal {v : Value} : T.denoted v → MadeExpression T (literal v)
  | this : MadeExpression T this
  | variableName {lexeme : String} {line : Int} :
      Lexeme.IsWord lexeme.toList → T.lookedUp lexeme →
      MadeExpression T (variableName (token .identifier lexeme .nil line))
  | super {method : Value} : IsWordToken method → MadeExpression T (super method)
  | grouping {e : Value} : MadeExpression T e → MadeExpression T (grouping e)
  | unary {operator right : Value} :
      IsOperatorOf TokenKind.unaryOperators operator → MadeExpression T right →
      MadeExpression T (unary operator right)
  | binary {left operator right : Value} :
      IsOperatorOf TokenKind.binaryOperators operator → MadeExpression T left →
      MadeExpression T right → MadeExpression T (binary left operator right)
  | logical {left operator right : Value} :
      IsOperatorOf TokenKind.logicalOperators operator → MadeExpression T left →
      MadeExpression T right → MadeExpression T (logical left operator right)
  | call {callee : Value} {arguments : List Value} :
      MadeExpression T callee → (∀ e ∈ arguments, MadeExpression T e) →
      MadeExpression T (call callee (list arguments))
  | get {owner name : Value} :
      MadeExpression T owner → IsWordToken name → MadeExpression T (get owner name)
  | set {owner name value : Value} :
      MadeExpression T owner → IsWordToken name → MadeExpression T value →
      MadeExpression T (set owner name value)
  | assign {name value : Value} :
      IsWordToken name → MadeExpression T value → MadeExpression T (assign name value)

/-- The statements that texts stand for. -/
inductive MadeStatement (T : Terms) : Value → Prop
  | expressionStatement {e : Value} :
      MadeExpression T e → MadeStatement T (expressionStatement e)
  | print {e : Value} : MadeExpression T e → MadeStatement T (print e)
  | returnNothing : MadeStatement T (returnStatement nil)
  | returnStatement {e : Value} : MadeExpression T e → MadeStatement T (returnStatement e)
  | uninitialized {name : Value} : IsWordToken name → MadeStatement T (variableDeclaration name nil)
  | variableDeclaration {name initializer : Value} :
      IsWordToken name → MadeExpression T initializer →
      MadeStatement T (variableDeclaration name initializer)
  | block {statements : List Value} :
      (∀ s ∈ statements, MadeStatement T s) → MadeStatement T (block (list statements))
  | ifStatement {condition thenBranch : Value} :
      MadeExpression T condition → MadeStatement T thenBranch →
      MadeStatement T (ifStatement condition thenBranch nil)
  | ifElseStatement {condition thenBranch elseBranch : Value} :
      MadeExpression T condition → MadeStatement T thenBranch → MadeStatement T elseBranch →
      MadeStatement T (ifStatement condition thenBranch elseBranch)
  | whileStatement {condition body : Value} :
      MadeExpression T condition → MadeStatement T body →
      MadeStatement T (whileStatement condition body)
  | functionDeclaration {name : Value} {params body : List Value} :
      IsWordToken name → (∀ p ∈ params, IsWordToken p) → (∀ s ∈ body, MadeStatement T s) →
      MadeStatement T (functionDeclaration name (list params) (list body))
  | classDeclaration {name base : Value} {methods : List Value} :
      IsWordToken name → IsBase base → (∀ m ∈ methods, IsFunction m) →
      (∀ m ∈ methods, MadeStatement T m) →
      MadeStatement T (classDeclaration name base (list methods))

variable {T : Terms} {ks : List TokenKind} {v : Value} {us vs : List Value}

theorem IsWordToken.isToken (h : IsWordToken v) : v.isToken := by
  obtain ⟨lexeme, line, -, rfl⟩ := h
  rfl

theorem IsOperatorOf.isToken (h : IsOperatorOf ks v) : v.isToken := by
  obtain ⟨k, -, line, rfl⟩ := h
  rfl

theorem MadeExpression.isExpression (h : MadeExpression T v) : v.isExpression := by
  cases h <;> rfl

theorem MadeStatement.isStatement (h : MadeStatement T v) : v.isStatement := by
  cases h <;> rfl

theorem MadeExpression.ne_nil (h : MadeExpression T v) : v ≠ .nil := by
  cases h <;> simp

theorem MadeStatement.ne_nil (h : MadeStatement T v) : v ≠ .nil := by
  cases h <;> simp

/-! ## The values of each phrase -/

/-- Operators with an operand after each of them. -/
inductive IsTail (T : Terms) (ks : List TokenKind) : List Value → Prop
  | nil : IsTail T ks []
  | cons {operator right : Value} {vs : List Value} :
      IsOperatorOf ks operator → MadeExpression T right → IsTail T ks vs →
      IsTail T ks (operator :: right :: vs)

theorem IsTail.append (hu : IsTail T ks us) (hv : IsTail T ks vs) : IsTail T ks (us ++ vs) := by
  induction hu with
  | nil => exact hv
  | cons ho hr _ ih => exact .cons ho hr ih

end Value

open Value

/-- What the values of each phrase are. -/
def Fits (T : Terms) : Nonterminal → List Value → Prop
  | .program, us => ∃ items, us = [list items] ∧ ∀ s ∈ items, MadeStatement T s
  | .declarations, us => ∀ s ∈ us, MadeStatement T s
  | .block, us => ∃ items, us = [block (list items)] ∧ ∀ s ∈ items, MadeStatement T s
  | .superclass, us => ∃ name, us = [variableName name] ∧ IsWordToken name
  | .function, us => ∃ f, us = [f] ∧ IsFunction f ∧ MadeStatement T f
  | .methods, us => (∀ m ∈ us, IsFunction m) ∧ ∀ m ∈ us, MadeStatement T m
  | .parameters, us => ∃ items, us = [list items] ∧ ∀ p ∈ items, IsWordToken p
  | .moreParameters, us => ∀ p ∈ us, IsWordToken p
  | .arguments, us => ∃ items, us = [list items] ∧ ∀ e ∈ items, MadeExpression T e
  | .moreArguments, us => ∀ e ∈ us, MadeExpression T e
  | .forInitializer, us => us = [nil] ∨ ∃ s, us = [s] ∧ MadeStatement T s
  | .orTail, us | .andTail, us => IsTail T TokenKind.logicalOperators us
  | .equalityTail, us | .comparisonTail, us | .termTail, us | .factorTail, us =>
    IsTail T TokenKind.binaryOperators us
  | .expression, us | .assignment, us | .logicOr, us | .logicAnd, us | .equality, us
  | .comparison, us | .term, us | .factor, us | .unary, us | .callChain, us | .primary, us =>
    ∃ e, us = [e] ∧ MadeExpression T e
  | .declaration, us | .classDecl, us | .funDecl, us | .varDecl, us | .statement, us
  | .exprStmt, us | .forStmt, us | .ifStmt, us | .printStmt, us | .returnStmt, us
  | .whileStmt, us => ∃ s, us = [s] ∧ MadeStatement T s

end LoxForms
