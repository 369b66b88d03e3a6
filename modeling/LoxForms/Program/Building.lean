import LoxForms.Double.Numeral
import LoxForms.Text.Quoted
import LoxForms.Tree
import LoxForms.Value
/-!
# Building a program

What a syntax tree stands for. Each rule makes a value out of the values of its
children, which are built first and from left to right; a leaf is read as a
token, and an absent child gives nothing. Every rule checks the number and the
sort of what it is given, so that a tree which no text has is refused and not
misread.

A `for` loop stands for a `while` loop with blocks around it, and a chain of
operators for binary nodes that nest to the left.
-/

namespace LoxForms

/-- What the language forbids although its grammar allows it. -/
inductive Violation where
  | invalidTarget
  | tooManyArguments
  | tooManyParameters
deriving DecidableEq, Repr

/-- The most arguments of a call, and the most parameters of a function. -/
def argumentLimit : Nat := 255

def Violation.message : Violation → String
  | invalidTarget => "Invalid assignment target."
  | tooManyArguments => "Can't have more than " ++ toString argumentLimit ++ " arguments."
  | tooManyParameters => "Can't have more than " ++ toString argumentLimit ++ " parameters."

/-- Why a rule refuses its children. -/
inductive Refusal where
  /-- A child is not of the sort that its place takes. -/
  | misplaced
  /-- There are more or fewer children than the rule has places. -/
  | miscounted
  /-- There is no child at a place that has to be filled. -/
  | missing
  | violation (v : Violation)
deriving DecidableEq, Repr

/-- Why a tree stands for no program. -/
inductive BuildError where
  /-- A node of this rule has been refused. -/
  | refused (rule : Rule) (refusal : Refusal)
  /-- A leaf is of no known kind. -/
  | unknownKind (name : String)
  /-- A leaf that should be a number is none. -/
  | notNumeral (text : String)
deriving DecidableEq, Repr

/-- What there is to say about a leaf, and about what is forbidden. -/
def BuildError.message? : BuildError → Option String
  | refused _ (.violation v) => some v.message
  | refused .. => none
  | unknownKind name => some (Text.quoted name)
  | notNumeral text => some ("could not convert string to float: " ++ Text.quoted text)

namespace Building

/-- A leaf as a token. A number's literal is what it denotes, a string's the
text between its first and its last character. -/
def readToken (kindName text : String) (line : Int) : Except BuildError Value :=
  match TokenKind.ofName? kindName with
  | none => .error (.unknownKind kindName)
  | some .number =>
    match Double.ofText? text with
    | some x => .ok (.token .number text (.float x) line)
    | none => .error (.notNumeral text)
  | some .string => .ok (.token .string text (.text (.ofList text.toList.tail.dropLast)) line)
  | some k => .ok (.token k text .nil line)

/-! ## What the places of a rule take -/

def require (b : Bool) : Except Refusal Unit := if b then .ok () else .error .misplaced

def expression (v : Value) : Except Refusal Value := do
  require v.isExpression
  return v

def statement (v : Value) : Except Refusal Value := do
  require v.isStatement
  return v

def token (v : Value) : Except Refusal Value := do
  require v.isToken
  return v

/-- A place that can be left empty. -/
def optional (place : Value → Except Refusal Value) : Value → Except Refusal Value
  | .nil => .ok .nil
  | v => place v

/-- A place for a list, where nothing stands for the empty one. -/
def listOrNil : Value → Except Refusal Value
  | .nil => .ok (.list [])
  | .list items => .ok (.list items)
  | _ => .error .misplaced

/-- A place for the variable that names a superclass. -/
def base : Value → Except Refusal Value
  | .variableName name => .ok (.variableName name)
  | _ => .error .misplaced

def method : Value → Except Refusal Value
  | .functionDeclaration name params body => .ok (.functionDeclaration name params body)
  | _ => .error .misplaced

/-- A place for a block, of which the statements count. -/
def blockStatements : Value → Except Refusal Value
  | .block statements => .ok statements
  | _ => .error .misplaced

/-- A list of at most `argumentLimit` children. -/
def limited (violation : Violation) (place : Value → Except Refusal Value)
    (children : List Value) : Except Refusal Value :=
  if argumentLimit < children.length then .error (.violation violation)
  else return .list (← children.mapM place)

/-- The literal of a token. -/
def tokenLiteral : Value → Except Refusal Value
  | .token _ _ literal _ => .ok literal
  | _ => .error .misplaced

/-! ## What the rules make -/

/-- The rest of a chain: an operator and an operand at a time, each joined to
what stands before it. -/
def foldRest (join : Value → Value → Value → Value) (left : Value) :
    List Value → Except Refusal Value
  | [] => .ok left
  | [operator] => do
    let _ ← token operator
    .error .missing
  | operator :: right :: rest => do
    let operator ← token operator
    let right ← expression right
    foldRest join (join left operator right) rest

/-- A chain of operands with operators between them, nested to the left. -/
def fold (join : Value → Value → Value → Value) : List Value → Except Refusal Value
  | [] => .error .missing
  | first :: rest => do foldRest join (← expression first) rest

/-- What is assigned to decides the node. -/
def assignment (value : Value) : Value → Except Refusal Value
  | .variableName name => .ok (.assign name value)
  | .get target name => .ok (.set target name value)
  | _ => .error (.violation .invalidTarget)

/-- A loop whose body ends with the increment, inside a block that begins with
the initializer. What is missing adds nothing, but that a missing condition is
always true. -/
def forLoop (initializer condition increment body : Value) : Value :=
  let body := match increment with
    | .nil => body
    | e => .block (.list [body, .expressionStatement e])
  let condition := match condition with
    | .nil => .literal (.bool true)
    | c => c
  match initializer with
  | .nil => .whileStatement condition body
  | s => .block (.list [s, .whileStatement condition body])

/-- What a rule makes of the values of its children. -/
def ofRule : Rule → List Value → Except Refusal Value
  | .start, children => return .list (← children.mapM statement)
  | .classDecl, name :: superclass :: methods => do
    let name ← token name
    let superclass ← optional base superclass
    return .classDeclaration name superclass (.list (← methods.mapM method))
  | .superclass, children =>
    match children.getLast? with
    | some name => return .variableName (← token name)
    | none => .error .missing
  | .function, [name, params, body] => do
    let name ← token name
    let statements ← blockStatements body
    return .functionDeclaration name (← listOrNil params) statements
  | .parameters, children => limited .tooManyParameters token children
  | .varDecl, [name, initializer] =>
    return .variableDeclaration (← token name) (← optional expression initializer)
  | .exprStmt, [e] => return .expressionStatement (← expression e)
  | .printStmt, [e] => return .print (← expression e)
  | .returnStmt, [e] => return .returnStatement (← optional expression e)
  | .block, children => return .block (.list (← children.mapM statement))
  | .ifStmt, [condition, thenBranch, elseBranch] => do
    let condition ← expression condition
    let thenBranch ← statement thenBranch
    return .ifStatement condition thenBranch (← optional statement elseBranch)
  | .whileStmt, [condition, body] =>
    return .whileStatement (← expression condition) (← statement body)
  | .forInitializer, [] => .ok .nil
  | .forInitializer, [s] => statement s
  | .forStmt, [initializer, condition, increment, body] => do
    let body ← statement body
    let increment ← optional expression increment
    let condition ← optional expression condition
    return forLoop (← optional statement initializer) condition increment body
  | .assign, [target, value] => do assignment (← expression value) target
  | .logicOr, children | .logicAnd, children => fold .logical children
  | .equality, children | .comparison, children | .term, children | .factor, children =>
    fold .binary children
  | .unary, [operator, right] => return .unary (← token operator) (← expression right)
  | .call, [callee, arguments] => do
    let arguments ← listOrNil arguments
    return .call (← expression callee) arguments
  | .arguments, children => limited .tooManyArguments expression children
  | .get, [target, name] => do
    let name ← token name
    return .get (← expression target) name
  | .number, [t] | .string, [t] => return .literal (← tokenLiteral t)
  | .trueLiteral, _ => .ok (.literal (.bool true))
  | .falseLiteral, _ => .ok (.literal (.bool false))
  | .nilLiteral, _ => .ok (.literal .nil)
  | .thisWord, _ => .ok .this
  | .variableName, [name] => return .variableName (← token name)
  | .grouping, [e] => return .grouping (← expression e)
  | .superExpr, [name] => return .super (← token name)
  | _, _ => .error .miscounted

/-- What a node makes of the values of its children. A node of no known rule
stays a node. -/
def ofNode : Label → List Value → Except BuildError Value
  | .rule r, children => (ofRule r children).mapError (.refused r)
  | .other name, children => .ok (.tree name children)

end Building

namespace Tree

variable {α : Type} (read : α → Except BuildError Value)

mutual

/-- What a tree stands for, given what its leaves do. -/
def build : Tree α → Except BuildError Value
  | node label children => do Building.ofNode label (← buildAll children)
  | leaf a => read a
  | absent => .ok .nil

def buildAll : List (Tree α) → Except BuildError (List Value)
  | [] => .ok []
  | t :: ts => return (← build t) :: (← buildAll ts)

end

end Tree

end LoxForms
