import LoxForms.Proofs.Automaton.Soundness
import LoxForms.Proofs.Automaton.Completeness
import LoxForms.Proofs.Grammar.Unfolding
/-!
# Declarations one after the other

A program is a row of declarations and nothing else (`Reads.program_iff`). What a row
of symbols reads it also reads before something else, as long as that is no `else`
(`Reads.before`), and no declaration begins with an `else`. So two programs, one after
the other, are read as one program: `Reads.program_append`.
-/

namespace LoxForms

namespace Reads

variable {after : TokenKind} {slots : List Slot} {w : List Lexeme} {ts : List (Tree Lexeme)}

/-- **Only an `else` matters after what has been read.** -/
theorem before {k : TokenKind} (hk : k ≠ .elseWord) (h : Reads after slots w ts) :
    Reads k slots w ts := by
  induction h with
  | done => exact done
  | keep hl _ ih => exact keep hl ih
  | drop hl _ ih => exact drop hl ih
  | @absent _ _ w _ hn _ ih =>
    refine absent ?_ ih
    cases w with
    | nil => exact hk
    | cons l w => exact hn
  | @phrase _ p _ u w _ _ hp hin _ ihin ih =>
    refine phrase hp ?_ ih
    cases w with
    | nil => exact ihin
    | cons l w => exact hin

/-! ## Rows of a repetition -/

/-- What the phrase of a repetition reads, rows of it read one after the other. -/
theorem exists_rows {list : Nonterminal} {rows : List (List Slot)}
    (hrep : Grammar.Repeats list rows) (h : Reads after [.phrase list] w ts) :
    ∃ chosen : List (List Slot),
      (∀ row ∈ chosen, row ∈ rows) ∧ Reads after chosen.flatten w ts := by
  obtain ⟨inner, hu, d, rfl, rfl, hd⟩ := h.exists_derivation
  obtain ⟨chosen, rest, rfl, hc, hrest⟩ := hu.of_list hrep.regular
  cases hrest
  refine ⟨chosen, hc, ?_⟩
  simpa only [List.append_nil] using d.reads hd

end Reads

namespace Grammar

theorem repeats_declaration : Repeats .declarations [[.phrase .declaration]] :=
  ⟨.program, _, List.mem_cons_self, List.mem_cons_self⟩

theorem program_of_mem {p : Production} (hp : p ∈ productions) (hn : p.phrase = .program) :
    p.slots = [] ∨ p.slots = [.phrase .declarations] := by
  have all_programs : ∀ p ∈ productions.toList,
      p.phrase = .program → p.slots = [] ∨ p.slots = [.phrase .declarations] := by decide +kernel
  exact all_programs p (Array.mem_toList_iff.mpr hp) hn

theorem program_mem : named .program .start [] ∈ productions ∧
    named .program .start [.phrase .declarations] ∈ productions := by
  constructor <;> exact mem_productions.mpr (.inl (by decide))

end Grammar

namespace Reads

variable {after : TokenKind} {u v w : List Lexeme} {us vs ts : List (Tree Lexeme)}

/-- **A program is a row of declarations.** -/
theorem program_iff : Reads after [.phrase .program] w [.node (.rule .start) ts] ↔
    ∃ n, Reads after (List.replicate n (.phrase .declaration)) w ts := by
  constructor
  · intro h
    obtain ⟨p, hp, hn, us, hin, ht⟩ := h.of_phrase
    rw [Grammar.single_of_program hp hn] at ht
    obtain ⟨-, rfl⟩ := Tree.node.inj (List.cons.inj ht).1
    rcases Grammar.program_of_mem hp hn with hslots | hslots
    · rw [hslots] at hin
      exact ⟨0, hin⟩
    · rw [hslots] at hin
      obtain ⟨chosen, hc, hreads⟩ := hin.exists_rows Grammar.repeats_declaration
      have hchosen : chosen = List.replicate chosen.length [Slot.phrase .declaration] :=
        List.eq_replicate_iff.mpr ⟨rfl, fun row hrow => List.mem_singleton.mp (hc row hrow)⟩
      rw [hchosen, List.flatten_replicate_singleton] at hreads
      exact ⟨chosen.length, hreads⟩
  · rintro ⟨n, h⟩
    cases n with
    | zero => exact production Grammar.program_mem.1 h
    | succ n =>
      have hrows : ∀ row ∈ List.replicate (n + 1) [Slot.phrase .declaration],
          row ∈ [[Slot.phrase .declaration]] := by simp
      rw [← List.flatten_replicate_singleton] at h
      have hlist := of_rows Grammar.repeats_declaration hrows (by simp) h
      exact production Grammar.program_mem.2 hlist

/-- No program begins with an `else`, whatever comes after it. -/
theorem upcoming_ne_else (h : Reads after [.phrase .program] w [.node (.rule .start) ts])
    (ha : after ≠ .elseWord) : upcoming after w ≠ .elseWord := by
  obtain ⟨n, h⟩ := program_iff.mp h
  have hmem := h.upcoming_mem
  cases n with
  | zero =>
    rw [List.mem_singleton.mp hmem]
    exact ha
  | succ n =>
    intro helse
    rw [helse] at hmem
    have hfirst : .elseWord ∈ Nonterminal.declaration.first := hmem
    exact absurd hfirst (by decide)

/-- **Two programs, one after the other, are read as one.** -/
theorem program_append (hu : Reads .endOfText [.phrase .program] u [.node (.rule .start) us])
    (hv : Reads .endOfText [.phrase .program] v [.node (.rule .start) vs]) :
    Reads .endOfText [.phrase .program] (u ++ v) [.node (.rule .start) (us ++ vs)] := by
  have hnext := hv.upcoming_ne_else (by decide)
  obtain ⟨m, hm⟩ := program_iff.mp hu
  obtain ⟨n, hn⟩ := program_iff.mp hv
  refine program_iff.mpr ⟨m + n, ?_⟩
  rw [← List.replicate_append_replicate]
  exact (hm.before hnext).append hn

end Reads

end LoxForms
