import LoxForms.Form
import LoxForms.Program
import LoxForms.SyntaxError.Message
import LoxForms.Writer
/-!
# Dumps

A dump of a program has one line for the form of each declaration, below a box
with a title if one is wanted. A debugging writer also traces the declarations
while they are turned into forms. Nothing is written before the text is known
to be a program, so a text that is none leaves the output as it was.
-/

namespace LoxForms

/-- Why a text has no forms. -/
inductive DumpError where
  | notProgram (error : ProgramError)
  | fault (fault : Fault)

namespace Dump

/-- The forms of a text's declarations. -/
def forms (source : String) : Except DumpError (List String) := do
  let statements ← (Program.ofText source).mapError .notProgram
  (Form.ofProgram statements).mapError .fault

/-- Turns declarations into forms and traces them, counting from an index. -/
def traced (w : Writer) (index : Nat) : List Value → Writer × Except Fault (List String)
  | [] => (w, .ok [])
  | statement :: rest =>
    let w := w.trace ("[" ++ toString index ++ ": " ++ statement.typeName ++ "]")
    match statement.form with
    | .error fault => (w, .error fault)
    | .ok form =>
      let (w, result) := traced w (index + 1) rest
      (w, result.map (form :: ·))

def title (w : Writer) : Writer :=
  (w.inside .box fun w => (w.println "SYNTAX TREE", (.ok () : Except Fault Unit))).1

/-- The forms of declarations, and a writer that has put them out. -/
def ofProgram (w : Writer) (titled : Bool) (statements : List Value) :
    Writer × Except Fault (List String) :=
  let w := w.trace ("[program: " ++ toString statements.length ++ " declarations]")
  let (w, result) := w.inside .indented fun w => traced w 0 statements
  match result with
  | .error fault => (w, .error fault)
  | .ok lines =>
    let w := if titled then title w else w
    (lines.foldl Writer.println w, .ok lines)

/-- The forms of a text's declarations, and a writer that has put them out. -/
def ofText (w : Writer) (titled : Bool) (source : String) :
    Writer × Except DumpError (List String) :=
  match Program.ofText source with
  | .error e => (w, .error (.notProgram e))
  | .ok statements =>
    let (w, result) := ofProgram w titled statements
    (w, result.mapError .fault)

/-! ## Dumps with a report -/

/-- What there is to say about a text that is no program. -/
def reason? (source : String) : ProgramError → Option String
  | .noTree e => some (e.message source)
  | .noProgram e => e.message?

/-- What a dump has led to. -/
structure Report where
  /-- The forms, if the text is a program. -/
  lines : Option (List String)
  /-- What is said about a text that is not. -/
  complaint : String

/-- Dumps a text without a title, and says so if it is no program. -/
def report (w : Writer) (source : String) : Writer × Except Fault Report :=
  match ofText w false source with
  | (w, .ok lines) => (w, .ok ⟨some lines, ""⟩)
  | (w, .error (.notProgram e)) =>
    (w, .ok ⟨none, "Syntax error: " ++ (reason? source e).getD "" ++ "\n"⟩)
  | (w, .error (.fault fault)) => (w, .error fault)

end Dump

end LoxForms
