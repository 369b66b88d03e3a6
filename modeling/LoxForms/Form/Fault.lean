import LoxForms.Value.Description
/-!
# Faults of a tree

Why a tree has no form. A flaw is what is wrong in one field of one node; it is
told after the names of the nodes around it, the outermost first. That a field
cannot be gone through at all is a fault of its own, told without them.
-/

namespace LoxForms

/-- What is wrong with the value of a field. -/
inductive Flaw where
  /-- A value of this type stands where a node has to. -/
  | notNode (typeName : String)
  /-- Nothing stands where something has to. -/
  | missing
  /-- A value of this type stands where a part of a form has to. -/
  | notPart (typeName : String)
  /-- A literal holds a value that none can stand for. -/
  | unsupportedLiteral (value : Value)
  /-- A value of this type stands where a token has to. -/
  | notToken (typeName : String)
  /-- A value of this type stands for a superclass. -/
  | notSuperclass (typeName : String)
  /-- A value of this type stands among methods. -/
  | notMethod (typeName : String)

def Flaw.message : Flaw → String
  | notNode t => "expected an expression or statement node, got " ++ t
  | missing => "missing a required child"
  | notPart t => "cannot render a " ++ t ++ " part"
  | unsupportedLiteral v => "unsupported literal value: " ++ v.describe
  | notToken t => "expected a token, got " ++ t
  | notSuperclass t => "superclass must be a Variable, got " ++ t
  | notMethod t => "method must be a FunctionDeclaration, got " ++ t

/-- A message with the names of the nodes around what it tells about, the
outermost first. -/
def located (path : List String) (message : String) : String :=
  if path.isEmpty then message else " > ".intercalate path ++ ": " ++ message

/-- A message as it is told from further and further out: by itself, and then
from each of several nodes, the innermost first. -/
def locatedOutwards (message : String) (path : List String) : List String → List String
  | [] => [located path message]
  | name :: names => located path message :: locatedOutwards message (name :: path) names

inductive Fault where
  /-- A flaw, below nodes of these names. -/
  | malformed (path : List String) (flaw : Flaw)
  /-- A value of this type, which has no elements, stands where a list has to. -/
  | noElements (typeName : String)

namespace Fault

def message : Fault → String
  | malformed path flaw => located path flaw.message
  | noElements t => "'" ++ t ++ "' object is not iterable"

/-- The same fault, told from the node around. -/
def within (variant : Variant) : Fault → Fault
  | malformed path flaw => malformed (variant.name :: path) flaw
  | noElements t => noElements t

end Fault

end LoxForms
