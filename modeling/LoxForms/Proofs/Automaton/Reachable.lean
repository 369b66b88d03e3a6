import LoxForms.Proofs.Automaton.Items
/-!
# Configurations that can be reached

A configuration is reached by reading tokens that the table shifts and finishing
productions that it reduces, whatever the text is. In all of them there is
enough on the stack for each production that is to be finished, and a state to
go to (`Reachable.reduce`). So settling fails only where the table has nothing to
do: `Reachable.settle`.
-/

namespace LoxForms

namespace Automaton.Stack

/-- The stacks that can be reached from the empty one. -/
inductive Reachable : Stack → Prop
  | start : Reachable []
  | read {s : Stack} {l : Lexeme} {q : Nat} :
      Reachable s → action? (top s) l.kind = some (.shift q) → Reachable (⟨q, [.leaf l]⟩ :: s)
  | finish {s s' : Stack} {k : TokenKind} {p : Production} :
      Reachable s → action? (top s) k = some (.reduce p) → reduce? s p = some s' → Reachable s'

variable {s s' : Stack} {k : TokenKind} {p : Production}

theorem Reachable.isPath (h : Reachable s) : IsPath s := by
  induction h with
  | start => exact .nil
  | read _ ha ih => exact .cons (action?_eq_shift.mp ha) ih
  | finish _ _ hr ih => exact ih.reduce hr

/-- **Whatever is to be finished can be finished**: the stack is deep enough for
the production, and there is a state to go to. -/
theorem Reachable.exists_reduce (h : Reachable s) (ha : action? (top s) k = some (.reduce p)) :
    p.arity ≤ s.length ∧ ∃ s', reduce? s p = some s' := by
  have hp := (action?_eq_reduce.mp ha).2.1
  exact ⟨h.isPath.arity_le hp, h.isPath.exists_reduce hp⟩

/-- **Settling goes on until the table says what comes of it**: the bound on it is
not met, and no reduction fails. -/
theorem Reachable.settle_cases (h : Reachable s) (k : TokenKind) :
    ∃ s', Reachable s' ∧ Finishes k s s' ∧
      ((∃ q, action? (top s') k = some (.shift q) ∧ settle s k = .reads q s') ∨
        (action? (top s') k = some .accept ∧ settle s k = .ends s') ∨
        (action? (top s') k = none ∧ settle s k = .stuck s')) := by
  induction hn : effort s using Nat.strongRecOn generalizing s with
  | _ n ih =>
    subst hn
    obtain ⟨m, hm⟩ : ∃ m, reductionBound s = m + 1 :=
      ⟨reductionBound s - 1, by have := effort_lt_reductionBound s; omega⟩
    cases ha : action? (top s) k with
    | none =>
      refine ⟨s, h, .refl, .inr (.inr ⟨ha, ?_⟩)⟩
      rw [settle, hm, settleWithin, ha]
    | some action =>
      cases action with
      | shift q =>
        refine ⟨s, h, .refl, .inl ⟨q, ha, ?_⟩⟩
        rw [settle, hm, settleWithin, ha]
      | accept =>
        refine ⟨s, h, .refl, .inr (.inl ⟨ha, ?_⟩)⟩
        rw [settle, hm, settleWithin, ha]
      | reduce p =>
        obtain ⟨-, s₁, hr⟩ := h.exists_reduce ha
        have hlt := effort_lt_of_reduce h.isPath (action?_eq_reduce.mp ha).2.1 hr
        obtain ⟨s', hs', hfinishes, hcases⟩ := ih _ hlt (h.finish ha hr) rfl
        rw [settle_of_reduce h.isPath ha hr]
        exact ⟨s', hs', .step ha hr hfinishes, hcases⟩

end Automaton.Stack

end LoxForms
