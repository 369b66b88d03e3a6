import LoxForms.Proofs.Automaton.Reachable
import LoxForms.Proofs.Building.Lookups
import LoxForms.Proofs.Double.Numerals
import LoxForms.Proofs.Form.Rendered
import LoxForms.Proofs.Parsing.Finding
/-!
# Nothing fails inside

A text has no tree, or its tree has something in it that the language forbids, or
it is a program and its statements have forms. There is no other way for it to
end: no reduction of the automaton fails, no rule is given what it has no place
for, no numeral is misread, and no statement is without a form.
-/

namespace LoxForms

open Automaton Building Value

/-! ## What is met while a text is read -/

/-- Reading a lexeme leads from one configuration that can be reached to
another. -/
theorem Progress.reachable_of_feed {p q : Progress} {l : Lexeme} (hp : p.stack.Reachable)
    (h : p.feed l = .ok q) : q.stack.Reachable := by
  obtain ⟨target, stack, hread, rfl⟩ := settle_of_feed h
  obtain ⟨s', hs', -, ⟨target', ha, hsettle⟩ | ⟨-, hsettle⟩ | ⟨-, hsettle⟩⟩ :=
    hp.settle_cases l.kind
  · obtain ⟨rfl, rfl⟩ := Stack.Settled.reads.inj (hread.symm.trans hsettle)
    exact hs'.read ha
  · exact absurd (hread.symm.trans hsettle) (by simp)
  · exact absurd (hread.symm.trans hsettle) (by simp)

theorem Progress.Finds.reachable {p q : Progress} {ls : List Lexeme} (h : p.Finds ls q)
    (hp : p.stack.Reachable) : q.stack.Reachable := by
  induction h with
  | done => exact hp
  | next _ hfeed _ ih => exact ih (reachable_of_feed hp hfeed)

/-! ## What terms any text has -/

/-- Numbers and strings denote numbers and texts; nothing is said of names. -/
def Terms.any : Terms where
  lookedUp _ := True
  denoted v := (∃ x, v = .float x) ∨ ∃ s, v = .text s

theorem Terms.any_plain : Terms.any.Plain := by
  rintro v (⟨x, rfl⟩ | ⟨s, rfl⟩) <;> rfl

theorem Lexeme.Found.bears {l : Lexeme} (h : Found l.kind l.text.toList) : l.Bears .any := by
  refine ⟨h, fun hk => ?_⟩
  simp only [List.mem_cons, List.not_mem_nil, or_false] at hk
  unfold Denotes
  rcases hk with hk | hk
  · rw [hk] at h ⊢
    obtain hspelled | ⟨hne, -⟩ | ⟨-, hnumber⟩ | ⟨hne, -⟩ := h
    · exact absurd hspelled (by simp [TokenKind.spelling?])
    · exact absurd hne (by decide)
    · obtain ⟨x, hx⟩ := Double.ofText?_of_isNumber hnumber
      exact ⟨.float x, ⟨x, hx, rfl⟩, .inl ⟨x, rfl⟩⟩
    · exact absurd hne (by decide)
  · rw [hk]
    exact ⟨_, rfl, .inr ⟨_, rfl⟩⟩

/-! ## How a text ends -/

namespace Program

/-- A text without a tree, and so without a program and without forms. -/
def HasNoTree (text : String) : Prop :=
  ∃ e, Parsed.ofText text = .error e ∧ ofText text = .error (.noTree e) ∧
    Dump.forms text = .error (.notProgram (.noTree e))

/-- A text with a tree that has something forbidden in it. -/
def IsForbidden (text : String) : Prop :=
  ∃ parsed r v, Parsed.ofText text = .ok parsed ∧
    parsed.tree.build readLexeme = .error (.refused r (.violation v)) ∧
    ofText text = .error (.noProgram (.refused r (.violation v))) ∧
    Dump.forms text = .error (.notProgram (.noProgram (.refused r (.violation v))))

/-- A text that is a program, of statements which all have forms. -/
def IsProgram (text : String) : Prop :=
  ∃ parsed statements lines, Parsed.ofText text = .ok parsed ∧
    parsed.tree.build readLexeme = .ok (.list statements) ∧
    ofText text = .ok statements ∧ (∀ s ∈ statements, s.isStatement) ∧
    statements.mapM Value.form = .ok lines ∧ Dump.forms text = .ok lines

theorem ends (text : String) : HasNoTree text ∨ IsForbidden text ∨ IsProgram text := by
  cases hparsed : Parsed.ofText text with
  | error e =>
    have hprogram : ofText text = .error (.noTree e) := by
      rw [ofText, hparsed]
      rfl
    refine .inl ⟨e, hparsed, hprogram, ?_⟩
    rw [Dump.forms, hprogram]
    rfl
  | ok parsed =>
    have hbears : ∀ l ∈ parsed.lexemes, l.Bears .any :=
      fun l hl => (Parsed.found hparsed l hl).bears
    rcases Parsed.comes hparsed hbears fun _ _ => trivial with
      ⟨_, hbuild, statements, rfl, hmade⟩ | ⟨_, hbuild, r, v, rfl⟩
    · have hprogram : ofText text = .ok statements :=
        ofText_eq_ok.mpr ⟨parsed, hparsed, _, hbuild, rfl⟩
      have hforms := Form.ofProgram_eq Terms.any_plain hmade
      refine .inr (.inr ⟨parsed, statements, _, hparsed, hbuild, hprogram,
        fun s hs => (hmade s hs).isStatement, hforms, ?_⟩)
      rw [Dump.forms, hprogram]
      show (Form.ofProgram statements).mapError _ = _
      rw [hforms]
      rfl
    · have hprogram : ofText text = .error (.noProgram (.refused r (.violation v))) := by
        rw [ofText_of_ofText hparsed, ofTree, hbuild]
        rfl
      refine .inr (.inl ⟨parsed, r, v, hparsed, hbuild, hprogram, ?_⟩)
      rw [Dump.forms, hprogram]
      rfl

/-- **Nothing fails inside.** Whatever configurations a text leads to, they are
among those that can be reached; in each of these, what is to be finished can be
finished, and settling is stuck only where the table has nothing to do. And any
text has no tree, or its tree is refused for what the language forbids, or it is a
program with a form for each of its statements. -/
theorem no_failure_inside :
    (∀ ls q, Progress.start.Finds ls q → q.stack.Reachable) ∧
    (∀ (s : Stack) k p, s.Reachable → action? s.top k = some (.reduce p) →
      p.arity ≤ s.length ∧ ∃ s', s.reduce? p = some s') ∧
    (∀ (s : Stack) k s', s.Reachable → s.settle k = .stuck s' → action? s'.top k = none) ∧
    ∀ text, HasNoTree text ∨ IsForbidden text ∨ IsProgram text := by
  refine ⟨fun ls q h => h.reachable .start, fun s k p hs ha => hs.exists_reduce ha, ?_, ends⟩
  intro s k s' hs hstuck
  obtain ⟨t, -, -, ⟨q, -, hsettle⟩ | ⟨-, hsettle⟩ | ⟨ha, hsettle⟩⟩ := hs.settle_cases k
  · exact absurd (hstuck.symm.trans hsettle) (by simp)
  · exact absurd (hstuck.symm.trans hsettle) (by simp)
  · obtain rfl := Stack.Settled.stuck.inj (hstuck.symm.trans hsettle)
    exact ha

/-- A number before a semicolon is finished; a call that is assigned to is
forbidden. -/
theorem no_failure_inside_call :
    (∃ s', Stack.reduce? [⟨40, [.leaf ⟨.number, "1", .start, .start⟩]⟩]
      (Grammar.named .primary .number [.keep .number]) = some s') ∧
    ∃ r v, ofText "f(1) = 2;" = .error (.noProgram (.refused r (.violation v))) := by
  have hreached : Stack.Reachable [⟨40, [.leaf ⟨.number, "1", .start, .start⟩]⟩] :=
    .read .start (by decide +kernel)
  refine ⟨(no_failure_inside.2.1 _ .semicolon _ hreached (by decide +kernel)).2, ?_⟩
  have hread : (Parsed.ofText "f(1) = 2;").toOption.isSome := by decide +kernel
  have hmade : (ofText "f(1) = 2;").toOption.isSome = false := by decide +kernel
  rcases no_failure_inside.2.2.2 "f(1) = 2;" with ⟨e, hnone, -⟩ | ⟨parsed, r, v, -, -, h, -⟩ |
    ⟨parsed, statements, lines, -, -, h, -⟩
  · rw [hnone] at hread
    exact absurd hread (by simp [Except.toOption])
  · exact ⟨r, v, h⟩
  · rw [h] at hmade
    exact absurd hmade (by simp [Except.toOption])

end Program

end LoxForms
