import LoxForms.Proofs.Automaton.Admitting
/-!
# Chains of reductions

Before a token is read, productions are finished one after the other, and so they are
when it is tried which tokens could come. No such chain goes on for ever. A production
with a single symbol leaves the stack as high as it is, and the empty one makes it higher;
but each of them takes away some effort (`effort_lt_of_reduce`). So there are at most as
many in a chain as the grammar has phrases for each frame of the stack, and one more for
the empty program (`Chain.length_le`).
-/

namespace LoxForms

namespace Automaton.Stack

/-- So many productions, finished one after the other before a token of a kind. -/
inductive Chain (k : TokenKind) : Nat → Stack → Stack → Prop
  | done {s : Stack} : Chain k 0 s s
  | next {n : Nat} {s s' s'' : Stack} {p : Production} :
      action? (top s) k = some (.reduce p) → reduce? s p = some s' → Chain k n s' s'' →
      Chain k (n + 1) s s''

variable {s s' : Stack} {k : TokenKind} {p : Production} {n : Nat}

theorem Chain.finishes (h : Chain k n s s') : Finishes k s s' := by
  induction h with
  | done => exact .refl
  | next ha hr _ ih => exact .step ha hr ih

theorem Finishes.exists_chain (h : Finishes k s s') : ∃ n, Chain k n s s' := by
  induction h with
  | refl => exact ⟨0, .done⟩
  | step ha hr _ ih =>
    obtain ⟨n, hchain⟩ := ih
    exact ⟨n + 1, .next ha hr hchain⟩

/-- **A chain takes away effort** with each of its productions. -/
theorem Chain.add_effort_le (h : Chain k n s s') (hs : IsPath s) : n + effort s' ≤ effort s := by
  induction h with
  | done => exact Nat.le_of_eq (Nat.zero_add _)
  | next ha hr _ ih =>
    have hlt := effort_lt_of_reduce hs (action?_eq_reduce.mp ha).2.1 hr
    have hle := ih (hs.reduce hr)
    omega

/-- Nothing is finished after the empty program. -/
theorem Chain.length_le_of_nil (h : Chain k n [] s') : n ≤ 1 := by
  cases h with
  | done => exact Nat.zero_le 1
  | next ha hr hrest =>
    obtain ⟨-, hp, -⟩ := action?_eq_reduce.mp ha
    obtain ⟨q, hq, rfl⟩ := reduce?_eq_some hr
    rw [complete?_zero hp, List.drop_nil] at hq
    obtain rfl := Option.some.inj (goto_start.symm.trans hq)
    cases hrest with
    | done => exact Nat.le_refl 1
    | next ha' =>
      have hcomplete := (action?_eq_reduce.mp ha').2.1
      exact nomatch complete_accepting.symm.trans hcomplete

/-- **A chain is no longer than the stack allows**: there are no more productions in it
than the grammar has phrases for each frame, but for the empty program. -/
theorem Chain.length_le (h : Chain k n s s') (hs : IsPath s) :
    n ≤ Nonterminal.all.length * s.length + 1 := by
  cases s with
  | nil => exact Nat.le_trans h.length_le_of_nil (Nat.le_add_left 1 _)
  | cons f s =>
    have hle := h.add_effort_le hs
    have hphrases : Nonterminal.all.length = 39 := rfl
    simp only [effort, List.length_cons] at hle
    rw [hphrases, List.length_cons]
    omega

/-- **A chain ends with what the table says of the token**: that it is read, that the text
is complete or that there is nothing to do. And that is what settling comes to. -/
theorem Reachable.exists_chain (h : Reachable s) (k : TokenKind) :
    ∃ n s', Chain k n s s' ∧
      ((∃ q, action? (top s') k = some (.shift q) ∧ settle s k = .reads q s') ∨
        (action? (top s') k = some .accept ∧ settle s k = .ends s') ∨
        (action? (top s') k = none ∧ settle s k = .stuck s')) := by
  obtain ⟨s', -, hfinishes, hcases⟩ := h.settle_cases k
  obtain ⟨n, hchain⟩ := hfinishes.exists_chain
  exact ⟨n, s', hchain, hcases⟩

/-- **What is expected is what a chain leads to.** -/
theorem IsPath.mem_expected_iff (h : IsPath s) : k ∈ expected s ↔
    ∃ n s', Chain k n s s' ∧
      ((∃ q, action? (top s') k = some (.shift q)) ∨ action? (top s') k = some .accept) := by
  simp only [mem_expected, admits_iff h, action?_eq_shift, action?_eq_accept]
  constructor
  · rintro ⟨s', hfinishes, hend⟩
    obtain ⟨n, hchain⟩ := hfinishes.exists_chain
    exact ⟨n, s', hchain, hend⟩
  · rintro ⟨n, s', hchain, hend⟩
    exact ⟨s', hchain.finishes, hend⟩

end Automaton.Stack

end LoxForms
