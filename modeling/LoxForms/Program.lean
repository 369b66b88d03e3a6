import LoxForms.Program.Building
import LoxForms.Tree.Reading
/-!
# Programs

A program is the list of the statements that a text's syntax tree stands for.
A text without a tree has no program, whatever else would be wrong with it.
-/

namespace LoxForms

inductive ProgramError where
  | noTree (error : SyntaxError)
  | noProgram (error : BuildError)
deriving DecidableEq, Repr

namespace Program

/-- A lexeme as a token. -/
def readLexeme (l : Lexeme) : Except BuildError Value :=
  Building.readToken l.kind.grammarName l.text l.first.line

/-- The statements of a value that is a list of them. -/
def statements : Value → List Value
  | .list items => items
  | _ => []

/-- The program of a syntax tree. -/
def ofTree (tree : Tree Lexeme) : Except BuildError (List Value) :=
  return statements (← tree.build readLexeme)

def ofText (text : String) : Except ProgramError (List Value) := do
  let parsed ← (Parsed.ofText text).mapError .noTree
  (ofTree parsed.tree).mapError .noProgram

end Program

end LoxForms
