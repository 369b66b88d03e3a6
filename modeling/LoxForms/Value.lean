import LoxForms.Double
import LoxForms.Grammar
/-!
# Values

Whatever a field of a syntax tree node can hold. A well-made node has tokens,
other nodes and lists of them in its fields, and a literal holds the value it
stands for. But a field takes any value, and it is up to the reader of a node
to find out what it has been given; so nodes, tokens, plain data and containers
are all values alike.
-/

namespace LoxForms

/-- The kinds of node: twelve expressions and nine statements. -/
inductive Variant where
  | binary | grouping | literal | unary | variableName | assign | logical | call | get | set
  | super | this
  | expressionStatement | print | returnStatement | variableDeclaration | block
  | ifStatement | whileStatement | functionDeclaration | classDeclaration
deriving DecidableEq, Repr

namespace Variant

def name : Variant → String
  | binary => "Binary" | grouping => "Grouping" | literal => "Literal" | unary => "Unary"
  | variableName => "Variable" | assign => "Assign" | logical => "Logical" | call => "Call"
  | get => "Get" | set => "Set" | super => "Super" | this => "This"
  | expressionStatement => "ExpressionStatement" | print => "Print"
  | returnStatement => "Return" | variableDeclaration => "VariableDeclaration"
  | block => "Block" | ifStatement => "If" | whileStatement => "While"
  | functionDeclaration => "FunctionDeclaration" | classDeclaration => "ClassDeclaration"

def expressions : List Variant :=
  [binary, grouping, literal, unary, variableName, assign, logical, call, get, set, super, this]

def statements : List Variant :=
  [expressionStatement, print, returnStatement, variableDeclaration, block,
   ifStatement, whileStatement, functionDeclaration, classDeclaration]

end Variant

inductive Value where
  /-- Nothing: the value of a literal nil, or an optional field left empty. -/
  | nil
  | bool (b : Bool)
  | int (n : Int)
  | float (x : Double)
  | text (s : String)
  | list (items : List Value)
  | tuple (items : List Value)
  /-- Keys with their values, in the order of insertion. -/
  | dictionary (entries : List (Value × Value))
  | bytes (bs : List UInt8)
  | kind (k : TokenKind)
  /-- An object with nothing to it but that it is no other. -/
  | object
  | token (kind : TokenKind) (lexeme : String) (literal : Value) (line : Int)
  | binary (left operator right : Value)
  | grouping (expression : Value)
  | literal (value : Value)
  | unary (operator right : Value)
  | variableName (name : Value)
  | assign (name value : Value)
  | logical (left operator right : Value)
  | call (callee arguments : Value)
  | get (object name : Value)
  | set (object name value : Value)
  | super (method : Value)
  | this
  /-- An expression of no known variant. -/
  | otherExpression (typeName : String)
  | expressionStatement (expression : Value)
  | print (expression : Value)
  | returnStatement (value : Value)
  | variableDeclaration (name initializer : Value)
  | block (statements : Value)
  | ifStatement (condition thenBranch elseBranch : Value)
  | whileStatement (condition body : Value)
  | functionDeclaration (name params body : Value)
  | classDeclaration (name superclass methods : Value)
  /-- A node of a syntax tree that stands for nothing else. -/
  | tree (name : String) (children : List Value)
deriving Inhabited

namespace Value

/-- Which variant a node is, if a value is a node. -/
def variant? : Value → Option Variant
  | binary .. => some .binary | grouping _ => some .grouping | literal _ => some .literal
  | unary .. => some .unary | variableName _ => some .variableName
  | assign .. => some .assign | logical .. => some .logical | call .. => some .call
  | get .. => some .get | set .. => some .set | super _ => some .super | this => some .this
  | expressionStatement _ => some .expressionStatement | print _ => some .print
  | returnStatement _ => some .returnStatement
  | variableDeclaration .. => some .variableDeclaration | block _ => some .block
  | ifStatement .. => some .ifStatement | whileStatement .. => some .whileStatement
  | functionDeclaration .. => some .functionDeclaration
  | classDeclaration .. => some .classDeclaration
  | nil | bool _ | int _ | float _ | text _ | list _ | tuple _ | dictionary _ | bytes _ | kind _
  | object | token .. | otherExpression _ | tree .. => none

/-- The name of a value's type. -/
def typeName (v : Value) : String :=
  match v.variant? with
  | some variant => variant.name
  | none =>
    match v with
    | nil => "NoneType" | bool _ => "bool" | int _ => "int" | float _ => "float"
    | text _ => "str" | list _ => "list" | tuple _ => "tuple" | dictionary _ => "dict"
    | bytes _ => "bytes" | kind _ => "TokenType" | object => "object" | token .. => "Token"
    | otherExpression typeName => typeName
    | _ => "Tree"

/-- Whether a value is a node of one of the variants. -/
def isNode (v : Value) : Bool := v.variant?.isSome

def isStatement (v : Value) : Bool := v.variant?.any Variant.statements.contains

/-- Whether a value is an expression, of a known variant or not. -/
def isExpression : Value → Bool
  | otherExpression _ => true
  | v => v.variant?.any Variant.expressions.contains

def isToken : Value → Bool
  | token .. => true
  | _ => false

/-- The values that one can go through in a value: the items of a list or a
tuple, the keys of a dictionary, the characters of a text and the bytes of a
run of them. -/
def elements? : Value → Option (List Value)
  | list items | tuple items => some items
  | dictionary entries => some (entries.map (·.1))
  | text s => some (s.toList.map fun c => text (.ofList [c]))
  | bytes bs => some (bs.map fun b => int b.toNat)
  | _ => none

end Value

end LoxForms
