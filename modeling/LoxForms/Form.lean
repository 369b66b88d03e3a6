import LoxForms.Form.Fault
/-!
# Forms

A syntax tree is written as a fully parenthesized form: a head, and after it
the parts, each behind a space. Lists among the parts are spliced in. Blocks,
functions and classes have layouts of their own, in which the forms of
statements stand side by side.

The fields of a node are looked at in a fixed order, so that the fault that is
told is always the first: names and operators before operands, then parts from
left to right; of a function its parameters, its body and its name; of a class
its name, its superclass and its methods.
-/

namespace LoxForms

namespace Form

/-- A head and the parts after it, in parentheses. -/
def parenthesized (head : String) (parts : List String) : String :=
  "(" ++ head ++ String.join (parts.map (" " ++ ·)) ++ ")"

def flawed {α : Type} (flaw : Flaw) : Except Fault α := .error (.malformed [] flaw)

/-- The lexeme of a field that has to hold a token. -/
def lexeme : Value → Except Fault String
  | .token _ lexeme _ _ => .ok lexeme
  | v => flawed (.notToken v.typeName)

/-- The lexemes of a field that has to hold a list of tokens. -/
def lexemes (v : Value) : Except Fault (List String) :=
  match v.elements? with
  | some items => items.mapM lexeme
  | none => .error (.noElements v.typeName)

/-- The text of a text, a number or a truth value. -/
def plain? : Value → Option String
  | .bool b => some (if b then "true" else "false")
  | .text s => some s
  | .int n => some (toString n)
  | .float x => some x.text
  | _ => none

/-- The text of what a literal holds. -/
def literal (v : Value) : Except Fault String :=
  match v, plain? v with
  | .nil, _ => .ok "nil"
  | _, some s => .ok s
  | _, none => flawed (.unsupportedLiteral v)

/-- A node's text, with the node's name put to any fault. -/
def within (variant : Variant) (text : Except Fault String) : Except Fault String :=
  text.mapError (Fault.within variant)

/-- What a node gives as a part of another one. -/
def node (variant : Variant) (text : Except Fault String) : Except Fault (List String) :=
  return [← within variant text]

/-- What a class adds to its name for its superclass. -/
def extending : Value → Except Fault String
  | .nil => .ok ""
  | .variableName base => return " < " ++ (← within .variableName (lexeme base))
  | v => flawed (.notSuperclass v.typeName)

/-- What has to stand in a list of forms. -/
inductive Members where
  /-- Any nodes. -/
  | nodes
  /-- Function declarations only. -/
  | methods
deriving DecidableEq

namespace Members

def includes : Members → Value → Bool
  | nodes, v => v.isNode
  | methods, v => v.variant? = some .functionDeclaration

def flaw : Members → String → Flaw
  | nodes => .notNode
  | methods => .notMethod

/-- A value that is no member, as a fault. -/
def refuse {α : Type} (m : Members) (v : Value) : Except Fault α := flawed (m.flaw v.typeName)

end Members

mutual

/-- The texts that a value gives as a part of a form: one for a node, a token or
a plain value, and those of all its items for a list. -/
def parts : Value → Except Fault (List String)
  | .list items | .tuple items => partsOfAll items
  | .token _ lexeme _ _ => .ok [lexeme]
  | .nil => flawed .missing
  | .bool b => .ok [if b then "true" else "false"]
  | .text s => .ok [s]
  | .int n => .ok [toString n]
  | .float x => .ok [x.text]
  | .binary left operator right => node .binary do
    let head ← lexeme operator
    return parenthesized head ((← parts left) ++ (← parts right))
  | .grouping expression => node .grouping do
    return parenthesized "group" (← parts expression)
  | .literal value => node .literal (literal value)
  | .unary operator right => node .unary do
    let head ← lexeme operator
    return parenthesized head (← parts right)
  | .variableName name => node .variableName (lexeme name)
  | .assign name value => node .assign do
    let target ← lexeme name
    return parenthesized "=" (target :: (← parts value))
  | .logical left operator right => node .logical do
    let head ← lexeme operator
    return parenthesized head ((← parts left) ++ (← parts right))
  | .call callee arguments => node .call do
    return parenthesized "call" ((← parts callee) ++ (← parts arguments))
  | .get target name => node .get do
    let property ← lexeme name
    return parenthesized "." ((← parts target) ++ [property])
  | .set target name value => node .set do
    let property ← lexeme name
    return parenthesized "=" ((← parts target) ++ property :: (← parts value))
  | .super method => node .super do
    return parenthesized "super" [← lexeme method]
  | .this => .ok ["this"]
  | .otherExpression typeName => flawed (.notNode typeName)
  | .expressionStatement expression => node .expressionStatement do
    return parenthesized ";" (← parts expression)
  | .print expression => node .print do
    return parenthesized "print" (← parts expression)
  | .returnStatement .nil => .ok ["(return)"]
  | .returnStatement value => node .returnStatement do
    return parenthesized "return" (← parts value)
  | .variableDeclaration name .nil => node .variableDeclaration do
    return parenthesized "var" [← lexeme name]
  | .variableDeclaration name initializer => node .variableDeclaration do
    let variableName ← lexeme name
    return parenthesized "var" (variableName :: "=" :: (← parts initializer))
  | .block statements => node .block do
    return "(block " ++ String.join (← forms .nodes statements) ++ ")"
  | .ifStatement condition thenBranch .nil => node .ifStatement do
    return parenthesized "if" ((← parts condition) ++ (← parts thenBranch))
  | .ifStatement condition thenBranch elseBranch => node .ifStatement do
    return parenthesized "if-else"
      ((← parts condition) ++ (← parts thenBranch) ++ (← parts elseBranch))
  | .whileStatement condition body => node .whileStatement do
    return parenthesized "while" ((← parts condition) ++ (← parts body))
  | .functionDeclaration name params body => node .functionDeclaration do
    let parameters ← lexemes params
    let statements ← forms .nodes body
    let functionName ← lexeme name
    return "(fun " ++ functionName ++ "(" ++ " ".intercalate parameters ++ ") " ++
      String.join statements ++ ")"
  | .classDeclaration name superclass methods => node .classDeclaration do
    let className ← lexeme name
    let base ← extending superclass
    let functions ← forms .methods methods
    return "(class" ++ className ++ base ++ String.join (functions.map (" " ++ ·)) ++ ")"
  | v => flawed (.notPart v.typeName)

def partsOfAll : List Value → Except Fault (List String)
  | [] => .ok []
  | v :: vs => return (← parts v) ++ (← partsOfAll vs)

/-- The forms of a field that has to hold a list of nodes. What one can go
through but holds no nodes is faulty from its first element on. -/
def forms (m : Members) : Value → Except Fault (List String)
  | .list items | .tuple items => formsOfAll m items
  | .dictionary entries => formsOfKeys m entries
  | v => match v.elements? with
    | some [] => .ok []
    | some (first :: _) => m.refuse first
    | none => .error (.noElements v.typeName)

def formsOfAll (m : Members) : List Value → Except Fault (List String)
  | [] => .ok []
  | v :: vs => do
    let form ← if m.includes v then parts v else m.refuse v
    return form ++ (← formsOfAll m vs)

def formsOfKeys (m : Members) : List (Value × Value) → Except Fault (List String)
  | [] => .ok []
  | (v, _) :: rest => do
    let form ← if m.includes v then parts v else m.refuse v
    return form ++ (← formsOfKeys m rest)

end

end Form

namespace Value

/-- The form of a node. -/
def form (v : Value) : Except Fault String :=
  if v.isNode then return String.join (← Form.parts v)
  else Form.flawed (.notNode v.typeName)

end Value

namespace Form

/-- A form with a given head and parts. -/
def parenthesize (head : String) (values : List Value) : Except Fault String :=
  return parenthesized head (← partsOfAll values)

/-- The forms of several nodes. -/
def ofProgram (statements : List Value) : Except Fault (List String) := statements.mapM Value.form

/-- The names among those of further expression variants that no form is
defined for. -/
def uncovered (names : List String) : List String :=
  ((names.filter fun n => !(Variant.expressions.map Variant.name).contains n).eraseDups).mergeSort
    fun a b => a ≤ b

def uncoveredMessage (names : List String) : String :=
  "no printer rule for: " ++ (Value.list (names.map .text)).describe

end Form

end LoxForms
