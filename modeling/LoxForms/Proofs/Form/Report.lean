import LoxForms.Proofs.Form.Safety
/-!
# Dumps are all or nothing

A dump with a report comes to an end on any text and with any writer. Either the text
is a program, and all of its dump is written; or it is none, and what there is to say
about it is said while the writer is left as it was. What the writer puts out before
the last form exists is a trace, and on a program every form exists
(`Program.ends`), so a dump that has begun is a dump that is completed.
-/

namespace LoxForms

open Building

namespace Writer

/-- A message as a line, behind the margin. -/
def line (w : Writer) (message : String) : String := w.margin ++ message ++ "\n"

def lines (w : Writer) (messages : List String) : String := String.join (messages.map w.line)

/-- What is written of the messages of a trace. -/
def traceLines (w : Writer) (messages : List String) : String :=
  if w.debugging then w.lines messages else ""

section

variable {ε α : Type} {w : Writer} {s t message : String} {messages : List String}

@[simp] theorem write_empty : w.write "" = w := by rw [write, String.append_empty]

@[simp] theorem write_write : (w.write s).write t = w.write (s ++ t) := by
  rw [write, write, write, String.append_assoc]

@[simp] theorem lines_write : (w.write s).lines messages = w.lines messages := rfl

@[simp] theorem traceLines_write : (w.write s).traceLines messages = w.traceLines messages := rfl

theorem lines_cons : w.lines (message :: messages) = w.line message ++ w.lines messages := by
  rw [lines, lines, List.map_cons, String.join_cons]

theorem traceLines_cons :
    w.traceLines (message :: messages) = w.traceLines [message] ++ w.traceLines messages := by
  unfold traceLines
  split
  · rw [lines_cons, lines_cons, String.append_assoc]
    rfl
  · rfl

theorem println_eq_write : w.println message = w.write (w.line message) := rfl

theorem foldl_println : messages.foldl println w = w.write (w.lines messages) := by
  induction messages generalizing w with
  | nil => exact write_empty.symm
  | cons message messages ih =>
    rw [List.foldl_cons, ih, println_eq_write, write_write, lines_write, lines_cons]

theorem lines_singleton : w.lines [message] = w.line message := by
  rw [lines_cons, lines, List.map_nil, String.join_nil, String.append_empty]

theorem trace_eq_write : w.trace message = w.write (w.traceLines [message]) := by
  unfold trace traceLines
  split
  · rw [lines_singleton, println_eq_write]
  · exact write_empty.symm

@[simp] theorem indent_write : (w.write s).indent = w.indent.write s := by
  cases hdebugging : w.debugging with
  | true => simp [indent, write, hdebugging]
  | false => simp [indent, write, hdebugging]

/-- A block is left at the depth where it has been entered. -/
theorem dedent_indent_write : (w.indent.write s).dedent = w.write s := by
  cases hdebugging : w.debugging with
  | true => simp [indent, dedent, write, hdebugging]
  | false => simp [indent, dedent, write, hdebugging]

/-- What a body writes within a block is written there. -/
theorem inside_indented {body : Writer → Writer × Except ε α} {result : Except ε α}
    (h : body w.indent = (w.indent.write s, result)) :
    w.inside .indented body = (w.write s, result) := by
  rw [inside, enter, h]
  exact Prod.ext dedent_indent_write rfl

end

end Writer

namespace Dump

/-- The lines of the trace for declarations that are counted from an index. -/
def announcements (index : Nat) : List Value → List String
  | [] => []
  | statement :: rest =>
    ("[" ++ toString index ++ ": " ++ statement.typeName ++ "]") :: announcements (index + 1) rest

def titleLines (w : Writer) : String :=
  Writer.divisionLine ++ w.line "SYNTAX TREE" ++ Writer.divisionLine

/-- All that there is to write of a program: its trace, a title if one is wanted, and
its forms. -/
def full (w : Writer) (titled : Bool) (statements : List Value) (lines : List String) : String :=
  w.traceLines ["[program: " ++ toString statements.length ++ " declarations]"] ++
    w.indent.traceLines (announcements 0 statements) ++
    (if titled then titleLines w else "") ++ w.lines lines

section

variable {w : Writer} {index : Nat} {titled : Bool} {statements : List Value}
variable {lines : List String} {source : String}

@[simp] theorem titleLines_write {s : String} : titleLines (w.write s) = titleLines w := rfl

theorem title_eq_write : title w = w.write (titleLines w) := by
  rw [title, titleLines, Writer.inside, Writer.println_eq_write]
  simp only [Writer.enter, Writer.leave, Writer.divide, Writer.write_write]
  rfl

/-- **Declarations that have forms are traced to the last.** -/
theorem traced_eq (h : statements.mapM Value.form = .ok lines) :
    traced w index statements =
      (w.write (w.traceLines (announcements index statements)), .ok lines) := by
  induction statements generalizing w index lines with
  | nil =>
    obtain rfl := Except.ok.inj h
    rw [traced, announcements]
    unfold Writer.traceLines
    split <;> exact congrArg (·, _) Writer.write_empty.symm
  | cons statement rest ih =>
    rw [List.mapM_cons] at h
    obtain ⟨form, hform, h⟩ := bind_eq_ok.mp h
    obtain ⟨forms, hforms, h⟩ := bind_eq_ok.mp h
    obtain rfl := pure_eq_ok.mp h
    rw [traced, announcements, Writer.traceLines_cons, Writer.trace_eq_write]
    simp only [hform]
    rw [ih hforms, Writer.write_write, Writer.traceLines_write]
    rfl

theorem ofProgram_eq (h : statements.mapM Value.form = .ok lines) :
    ofProgram w titled statements = (w.write (full w titled statements lines), .ok lines) := by
  have hbody (w : Writer) : w.inside .indented (fun w => traced w 0 statements) =
      (w.write (w.indent.traceLines (announcements 0 statements)), .ok lines) :=
    Writer.inside_indented (traced_eq h)
  rw [ofProgram, Writer.trace_eq_write]
  simp only [hbody]
  cases titled with
  | true => simp [full, title_eq_write, Writer.foldl_println, String.append_assoc]
  | false => simp [full, Writer.foldl_println, String.append_assoc]

/-- A dump is of a program, or there is something to say about the text. -/
theorem ofText_cases (w : Writer) (titled : Bool) (source : String) :
    (∃ statements lines, Program.ofText source = .ok statements ∧ forms source = .ok lines ∧
      ofText w titled source = (w.write (full w titled statements lines), .ok lines)) ∨
    ∃ e message, Program.ofText source = .error e ∧ reason? source e = some message ∧
      ofText w titled source = (w, .error (.notProgram e)) := by
  rcases Program.ends source with ⟨e, -, hprogram, -⟩ | ⟨_, r, v, -, -, hprogram, -⟩ |
    ⟨_, statements, lines, -, -, hprogram, -, hlines, hforms⟩
  · refine .inr ⟨_, _, hprogram, rfl, ?_⟩
    rw [ofText, hprogram]
  · refine .inr ⟨_, _, hprogram, rfl, ?_⟩
    rw [ofText, hprogram]
  · refine .inl ⟨statements, lines, hprogram, hforms, ?_⟩
    rw [ofText, hprogram]
    simp only [ofProgram_eq hlines]
    rfl

end

/-- A dump of a program: its forms, a writer that has put out all that there is to write
and is as it was otherwise, and no complaint. -/
def Dumped (w : Writer) (source : String) : Prop :=
  ∃ statements lines, Program.ofText source = .ok statements ∧ forms source = .ok lines ∧
    report w source = (w.write (full w false statements lines), .ok ⟨some lines, ""⟩)

/-- A complaint that a text is no program, with the writer as it was. -/
def Declined (w : Writer) (source : String) : Prop :=
  ∃ e message, Program.ofText source = .error e ∧ reason? source e = some message ∧
    report w source = (w, .ok ⟨none, "Syntax error: " ++ message ++ "\n"⟩)

/-- **A dump is all or nothing**, on any text and with any writer. -/
theorem dumped_or_declined (w : Writer) (source : String) :
    (Dumped w source ∨ Declined w source) ∧ ¬(Dumped w source ∧ Declined w source) := by
  constructor
  · rcases ofText_cases w false source with ⟨statements, lines, hprogram, hforms, h⟩ |
      ⟨e, message, hprogram, hmessage, h⟩
    · refine .inl ⟨statements, lines, hprogram, hforms, ?_⟩
      rw [report, h]
    · refine .inr ⟨e, message, hprogram, hmessage, ?_⟩
      rw [report, h]
      simp only [hmessage, Option.getD_some]
  · rintro ⟨⟨_, _, hprogram, -⟩, ⟨_, _, herror, -⟩⟩
    exact nomatch hprogram.symm.trans herror

/-- A text of two declarations, with a trace behind margins of two. -/
example : (report (.fresh 2 true) "print a; print nil;").1.text =
    "[program: 2 declarations]\n  [0: Print]\n  [1: Print]\n(print a)\n(print nil)\n" := by
  decide +kernel

end Dump

end LoxForms
