import LoxForms.Proofs.Form.Report
/-!
# A trace changes nothing

Two dumps of one program, with a trace and without one, come to the same forms and to
the same depth. What is shown of them is the same but for the margin, and with a trace
the whole of the trace stands before it: a line for the program at the depth of the
writer, and a line for each declaration one level deeper.
-/

namespace LoxForms

namespace Writer

/-- Lines with so many spaces before each of them. -/
def setOff (spaces : Nat) (messages : List String) : String :=
  String.join (messages.map fun message =>
    String.ofList (List.replicate spaces ' ') ++ message ++ "\n")

/-- The spaces that a margin has. -/
def spaces (w : Writer) : Nat := if w.debugging then w.indentSize.toNat * w.depth.toNat else 0

variable {w : Writer} {messages : List String}

theorem lines_eq_setOff : w.lines messages = setOff w.spaces messages := rfl

theorem traceLines_of_debugging (h : w.debugging = true) :
    w.traceLines messages = setOff w.spaces messages := if_pos h

theorem traceLines_of_silent (h : w.debugging = false) : w.traceLines messages = "" :=
  if_neg (by rw [h]; exact Bool.false_ne_true)

end Writer

namespace Dump

open Writer

/-- The lines that tell of declarations, counted from an index. -/
def tellings (index : Nat) (variants : List Variant) : List String :=
  (variants.zipIdx index).map fun (variant, i) => "[" ++ toString i ++ ": " ++ variant.name ++ "]"

/-- A trace that starts at some depth: the number of declarations, and then, one level
deeper, which variant each of them is. -/
def trail (indentSize depth : Nat) (variants : List Variant) : String :=
  setOff (indentSize * depth) ["[program: " ++ toString variants.length ++ " declarations]"] ++
    setOff (indentSize * (depth + 1)) (tellings 0 variants)

/-- What is shown of a program with so many spaces before the title, if there is one,
and before each form. The division lines around the title have no margin. -/
def shown (spaces : Nat) (titled : Bool) (lines : List String) : String :=
  (if titled then divisionLine ++ setOff spaces ["SYNTAX TREE"] ++ divisionLine else "") ++
    setOff spaces lines

section

variable {w : Writer} {index : Nat} {titled : Bool}
variable {statements : List Value} {variants : List Variant} {lines : List String}

theorem exists_variants (h : ∀ s ∈ statements, s.isStatement) :
    ∃ variants : List Variant, statements.map Value.variant? = variants.map some := by
  induction statements with
  | nil => exact ⟨[], rfl⟩
  | cons statement rest ih =>
    obtain ⟨variants, hvariants⟩ := ih fun s hs => h s (List.mem_cons_of_mem _ hs)
    obtain ⟨variant, hvariant, -⟩ := (Option.any_eq_true _ _).mp (h statement List.mem_cons_self)
    exact ⟨variant :: variants, by rw [List.map_cons, hvariant, hvariants, List.map_cons]⟩

/-- Declarations are announced by what they are variants of. -/
theorem announcements_eq (h : statements.map Value.variant? = variants.map some) :
    announcements index statements = tellings index variants := by
  induction statements generalizing index variants with
  | nil =>
    obtain rfl := List.map_eq_nil_iff.mp h.symm
    rfl
  | cons statement rest ih =>
    obtain ⟨variant, variants, rfl, hvariant, hrest⟩ := List.map_eq_cons_iff.mp h.symm
    have hname : statement.typeName = variant.name := by
      unfold Value.typeName
      rw [← hvariant]
    rw [announcements, ih hrest.symm, hname]
    rfl

theorem shown_untitled {spaces : Nat} : shown spaces false lines = setOff spaces lines :=
  String.empty_append

theorem shown_eq :
    (if titled then titleLines w else "") ++ w.lines lines = shown w.spaces titled lines := by
  rw [shown, titleLines, ← lines_singleton, lines_eq_setOff, lines_eq_setOff]

/-- Without a trace there is what is shown, and no margin. -/
theorem full_of_silent (h : w.debugging = false) :
    full w titled statements lines = shown 0 titled lines := by
  have hindent : w.indent.debugging = false := by simp [indent, h]
  have hspaces : w.spaces = 0 := by simp [spaces, h]
  rw [full, traceLines_of_silent h, traceLines_of_silent hindent, String.append_assoc, shown_eq,
    hspaces, String.empty_append, String.empty_append]

/-- With a trace there is the trace, and then what is shown behind the margin. -/
theorem full_of_debugging {indentSize depth : Nat} {text : String}
    (h : statements.map Value.variant? = variants.map some) :
    full ⟨indentSize, depth, true, text⟩ titled statements lines =
      trail indentSize depth variants ++ shown (indentSize * depth) titled lines := by
  have hlength : statements.length = variants.length := by
    rw [← List.length_map Value.variant?, h, List.length_map]
  rw [full, traceLines_of_debugging rfl, traceLines_of_debugging rfl, announcements_eq h, hlength,
    String.append_assoc, shown_eq]
  rfl

end

/-- **A trace changes nothing that is shown.** Of any program, with or without a title
and from any depth on, the same forms come of a dump with a trace and of one without,
and both leave the writer at its depth. Without a trace the output is the title and the
forms with no margin; with one it is the trace, and then the same behind the margin. -/
theorem traced_untraced {source : String} {statements : List Value}
    (h : Program.ofText source = .ok statements) (indentSize depth : Nat) (titled : Bool)
    (text : String) :
    ∃ (lines : List String) (variants : List Variant),
      forms source = .ok lines ∧ statements.map Value.variant? = variants.map some ∧
      ofText ⟨indentSize, depth, false, text⟩ titled source =
        (⟨indentSize, depth, false, text ++ shown 0 titled lines⟩, .ok lines) ∧
      ofText ⟨indentSize, depth, true, text⟩ titled source =
        (⟨indentSize, depth, true, text ++ (trail indentSize depth variants ++
          shown (indentSize * depth) titled lines)⟩, .ok lines) := by
  obtain ⟨variants, hvariants⟩ : ∃ variants : List Variant,
      statements.map Value.variant? = variants.map some := by
    rcases Program.ends source with ⟨_, -, h', -⟩ | ⟨_, _, _, -, -, h', -⟩ |
      ⟨_, _, _, -, -, h', hstatements, -⟩
    · exact nomatch h.symm.trans h'
    · exact nomatch h.symm.trans h'
    · obtain rfl := Except.ok.inj (h.symm.trans h')
      exact exists_variants hstatements
  have hofText (w : Writer) : ∃ lines, forms source = .ok lines ∧
      ofText w titled source = (w.write (full w titled statements lines), .ok lines) := by
    rcases ofText_cases w titled source with ⟨_, lines, h', hforms, hdump⟩ | ⟨_, _, h', -⟩
    · obtain rfl := Except.ok.inj (h.symm.trans h')
      exact ⟨lines, hforms, hdump⟩
    · exact nomatch h.symm.trans h'
  obtain ⟨lines, hforms, hsilent⟩ := hofText ⟨indentSize, depth, false, text⟩
  obtain ⟨lines', hforms', hdebugging⟩ := hofText ⟨indentSize, depth, true, text⟩
  obtain rfl := Except.ok.inj (hforms.symm.trans hforms')
  rw [full_of_silent rfl] at hsilent
  rw [full_of_debugging hvariants] at hdebugging
  exact ⟨lines, variants, hforms, hvariants, hsilent, hdebugging⟩

/-- A function and a class, from depth one on. -/
theorem traced_untraced_function_class :
    ∃ statements, Program.ofText "fun f() {} class A {}" = .ok statements ∧
      ∃ (lines : List String) (variants : List Variant),
        forms "fun f() {} class A {}" = .ok lines ∧
        statements.map Value.variant? = variants.map some ∧
        ofText ⟨2, 1, false, ""⟩ true "fun f() {} class A {}" =
          (⟨2, 1, false, shown 0 true lines⟩, .ok lines) ∧
        ofText ⟨2, 1, true, ""⟩ true "fun f() {} class A {}" =
          (⟨2, 1, true, trail 2 1 variants ++ shown 2 true lines⟩, .ok lines) := by
  have hread : (Program.ofText "fun f() {} class A {}").toOption.isSome := by decide +kernel
  cases h : Program.ofText "fun f() {} class A {}" with
  | error e =>
    rw [h] at hread
    exact absurd hread (by simp [Except.toOption])
  | ok statements =>
    obtain ⟨lines, variants, hforms, hvariants, hsilent, hdebugging⟩ :=
      traced_untraced h 2 1 true ""
    rw [String.empty_append] at hsilent hdebugging
    exact ⟨statements, rfl, lines, variants, hforms, hvariants, hsilent, hdebugging⟩

end Dump

end LoxForms
