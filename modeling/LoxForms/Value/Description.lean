import LoxForms.Double.Layout
import LoxForms.Text.Quoted
import LoxForms.Value
/-!
# Descriptions of values

How a value is shown where a message tells about it: numbers and the words for
nothing and the truth values plainly, texts in quotes, containers in their
brackets, and nodes and tokens as a name with all their fields.
`Value.plainText` is the same but for texts, which stand as they are, and for
kinds and tokens, which have a shorter form of their own.
-/

namespace LoxForms

namespace Value

/-- A name with named fields in parentheses. -/
def record (name : String) (fields : List (String × String)) : String :=
  name ++ "(" ++ ", ".intercalate (fields.map fun (field, shown) => field ++ "=" ++ shown) ++ ")"

def describeNode (variant : Variant) (fields : List (String × String)) : String :=
  record variant.name fields

mutual

def describe : Value → String
  | nil => "None"
  | bool b => if b then "True" else "False"
  | int n => toString n
  | float x => x.text
  | text s => Text.quoted s
  | list items => "[" ++ ", ".intercalate (describeAll items) ++ "]"
  | tuple [item] => "(" ++ describe item ++ ",)"
  | tuple items => "(" ++ ", ".intercalate (describeAll items) ++ ")"
  | dictionary entries => "\x7b" ++ ", ".intercalate (describeEntries entries) ++ "\x7d"
  | bytes bs => Text.quotedBytes bs
  | kind k => "<TokenType." ++ k.name ++ ": " ++ toString k.ordinal ++ ">"
  | object => "<object>"
  | token k s v n =>
    record "Token"
      [("kind", "<TokenType." ++ k.name ++ ": " ++ toString k.ordinal ++ ">"),
       ("lexeme", Text.quoted s), ("literal", describe v), ("line", toString n)]
  | binary l o r =>
    describeNode .binary
      [("left", describe l), ("operator", describe o), ("right", describe r)]
  | grouping e => describeNode .grouping [("expression", describe e)]
  | literal v => describeNode .literal [("value", describe v)]
  | unary o r => describeNode .unary [("operator", describe o), ("right", describe r)]
  | variableName n => describeNode .variableName [("name", describe n)]
  | assign n v => describeNode .assign [("name", describe n), ("value", describe v)]
  | logical l o r =>
    describeNode .logical
      [("left", describe l), ("operator", describe o), ("right", describe r)]
  | call c a => describeNode .call [("callee", describe c), ("arguments", describe a)]
  | get o n => describeNode .get [("object", describe o), ("name", describe n)]
  | set o n v =>
    describeNode .set [("object", describe o), ("name", describe n), ("value", describe v)]
  | super m => describeNode .super [("method", describe m)]
  | this => describeNode .this []
  | otherExpression typeName => "<" ++ typeName ++ ">"
  | expressionStatement e => describeNode .expressionStatement [("expression", describe e)]
  | print e => describeNode .print [("expression", describe e)]
  | returnStatement v => describeNode .returnStatement [("value", describe v)]
  | variableDeclaration n i =>
    describeNode .variableDeclaration [("name", describe n), ("initializer", describe i)]
  | block s => describeNode .block [("statements", describe s)]
  | ifStatement c t e =>
    describeNode .ifStatement
      [("condition", describe c), ("then_branch", describe t), ("else_branch", describe e)]
  | whileStatement c b =>
    describeNode .whileStatement [("condition", describe c), ("body", describe b)]
  | functionDeclaration n p b =>
    describeNode .functionDeclaration
      [("name", describe n), ("params", describe p), ("body", describe b)]
  | classDeclaration n s m =>
    describeNode .classDeclaration
      [("name", describe n), ("superclass", describe s), ("methods", describe m)]
  | tree name children =>
    "Tree(" ++ Text.quoted name ++ ", [" ++ ", ".intercalate (describeAll children) ++ "])"

def describeAll : List Value → List String
  | [] => []
  | v :: vs => describe v :: describeAll vs

def describeEntries : List (Value × Value) → List String
  | [] => []
  | (k, v) :: rest => (describe k ++ ": " ++ describe v) :: describeEntries rest

end

/-- The text of a value by itself. A token's is its kind, its lexeme and the
text of its literal. -/
def plainText : Value → String
  | text s => s
  | kind k => "TokenType." ++ k.name
  | token k s v _ => k.name ++ " " ++ s ++ " " ++ plainText v
  | v => describe v

end Value

end LoxForms
