import LoxForms.Automaton.Stack
import LoxForms.Proofs.Automaton.Edges
/-!
# Settling without a bound

`Stack.settle` finishes productions for as long as its bound allows. The bound
is never met: a production of two symbols or more makes the stack shorter, one
of a single symbol leads to a phrase of higher rank, and the empty one is
finished before anything is read. So settling is what it is meant to be, the
finishing of all that can be finished: `settle_reads_iff` and `settle_ends_iff`
say so with `Finishes`, which has no bound.
-/

namespace LoxForms

/-- How many phrases can stand inside one another up to this one, if nothing but
the first symbol has been read of each. -/
def Nonterminal.rank : Nonterminal → Nat
  | callChain | methods => 2
  | unary => 3
  | factor => 4
  | term => 5
  | comparison => 6
  | equality => 7
  | logicAnd => 8
  | logicOr => 9
  | assignment => 10
  | expression => 11
  | arguments | exprStmt => 12
  | statement | forInitializer => 13
  | declaration => 14
  | declarations => 15
  | program => 16
  | _ => 1

theorem Nonterminal.rank_le (n : Nonterminal) : n.rank ≤ 16 := by cases n <;> decide

theorem Nonterminal.rank_pos (n : Nonterminal) : 0 < n.rank := by cases n <;> decide

def Atom.rank : Atom → Nat
  | token _ => 0
  | phrase n => n.rank

theorem Atom.rank_le (a : Atom) : a.rank ≤ 16 := by
  cases a with
  | token => exact Nat.zero_le _
  | phrase n => exact n.rank_le

namespace Automaton

/-! ## What there is to do in a state -/

theorem action?_eq_shift {q r : Nat} {k : TokenKind} :
    action? q k = some (.shift r) ↔ step? q (.token k) = some r := by
  rw [step?_token]
  unfold action?
  by_cases hq : q = accepting
  · subst hq
    simp only [if_true, shifts_accepting, List.lookup_nil]
    split <;> simp
  · rw [if_neg hq]
    cases (state q).shifts.lookup k with
    | some target => simp
    | none =>
      dsimp only
      split <;> simp

theorem reduce_before {q : Nat} {k : TokenKind} {p : Production} :
    ((if (lookahead q).contains k = true then (complete? q).map Action.reduce else none) =
      some (Action.reduce p)) ↔
      complete? q = some p ∧ k ∈ p.phrase.follow := by
  unfold lookahead
  generalize complete? q = c
  cases c with
  | none => simp
  | some p' =>
    dsimp only
    by_cases hk : k ∈ p'.phrase.follow
    · rw [if_pos (List.contains_iff_mem.mpr hk)]
      simp only [Option.map_some, Option.some.injEq, Action.reduce.injEq]
      constructor
      · rintro rfl
        exact ⟨rfl, hk⟩
      · exact And.left
    · rw [if_neg (mt List.contains_iff_mem.mp hk)]
      simp only [reduceCtorEq, Option.some.injEq, false_iff]
      rintro ⟨rfl, hk'⟩
      exact hk hk'

theorem action?_eq_reduce {q : Nat} {k : TokenKind} {p : Production} :
    action? q k = some (.reduce p) ↔
      step? q (.token k) = none ∧ complete? q = some p ∧ k ∈ p.phrase.follow := by
  rw [step?_token, ← reduce_before]
  unfold action?
  by_cases hq : q = accepting
  · subst hq
    simp only [if_true, complete_accepting, lookahead]
    split <;> simp
  · rw [if_neg hq]
    cases (state q).shifts.lookup k with
    | some target => simp
    | none => simp only [true_and]

theorem action?_eq_accept {q : Nat} {k : TokenKind} :
    action? q k = some .accept ↔ q = accepting ∧ k = .endOfText := by
  unfold action?
  by_cases hq : q = accepting
  · subst hq
    simp
  · rw [if_neg hq]
    cases (state q).shifts.lookup k with
    | some target => simp [hq]
    | none =>
      simp only [hq, false_and, iff_false]
      split <;> simp

theorem mem_wanted {q : Nat} {k : TokenKind} : k ∈ wanted q ↔ (action? q k).isSome := by
  rw [wanted, List.mem_filter]
  exact and_iff_right k.mem_byGrammarName

/-- What is wanted is what is read in a state, and that before which a production is
finished. -/
theorem mem_table_wanted {q : Nat} {k : TokenKind} : k ∈ table.wanted q ↔ k ∈ wanted q := by
  rw [mem_wanted, Source.wanted, action?]
  by_cases hq : q = accepting
  · rw [if_pos hq, if_pos hq, List.mem_singleton]
    split <;> simp [*]
  · rw [if_neg hq, if_neg hq, List.mem_append]
    cases hlookup : (state q).shifts.lookup k with
    | some r =>
      have hread : k ∈ (state q).shifts.map Prod.fst :=
        List.mem_map.mpr ⟨(k, r), mem_of_lookup hlookup, rfl⟩
      exact iff_of_true (.inl hread) rfl
    | none =>
      have hnot : k ∉ (state q).shifts.map Prod.fst := by
        rintro hread
        obtain ⟨e, he, rfl⟩ := List.mem_map.mp hread
        exact absurd (List.lookup_eq_none_iff.mp hlookup e he) (by simp)
      rw [show table.row q = state q from rfl, or_iff_right hnot, table_complete?]
      cases hcomplete : complete? q <;> simp [lookahead, hcomplete]

/-! ## Rank -/

theorem rank_lt_of_mem {p : Production} {a : Atom} (hp : p ∈ Grammar.productions)
    (ha : p.atoms = [a]) : a.rank < p.phrase.rank := by
  have all_rank : ∀ p ∈ Grammar.productions.toList,
      p.atoms.length = 1 → ∀ a ∈ p.atoms, a.rank < p.phrase.rank := by decide +kernel
  exact all_rank p (Array.mem_toList_iff.mpr hp) (by rw [ha]; rfl) a (by simp [ha])

namespace Stack

/-- Each state has been reached from the one before it by a symbol. -/
inductive IsPath : Stack → Prop
  | nil : IsPath []
  | cons {f : Frame} {s : Stack} {a : Atom} :
      step? (top s) a = some f.state → IsPath s → IsPath (f :: s)

variable {s s' : Stack} {k : TokenKind} {p : Production}

theorem IsPath.drop (h : IsPath s) (n : Nat) : IsPath (s.drop n) := by
  induction n generalizing s with
  | zero => exact h
  | succ n ih =>
    cases h with
    | nil => exact .nil
    | cons _ h => exact ih h

theorem IsPath.eq_nil (h : IsPath s) (htop : top s = 0) : s = [] := by
  cases h with
  | nil => rfl
  | cons hstep _ => exact absurd htop (ne_zero_of_step hstep)

/-- What a state tells of its past is on the stack. -/
theorem IsPath.length_past_le (h : IsPath s) : (past (top s)).length ≤ s.length := by
  induction h with
  | nil => simp [top, past_zero]
  | cons hstep _ ih =>
    obtain ⟨rest, hp, hrest⟩ := past_of_step hstep
    have := hrest.length_le
    simp only [top, hp, List.length_cons]
    omega

theorem IsPath.arity_le (h : IsPath s) (hp : complete? (top s) = some p) :
    p.arity ≤ s.length := by
  have hlen := (past_of_complete hp).length_le
  rw [List.length_reverse] at hlen
  exact Nat.le_trans hlen h.length_past_le

theorem reduce?_eq_some (h : reduce? s p = some s') :
    ∃ q, goto? (top (s.drop p.arity)) p.phrase = some q ∧
      s' = ⟨q, p.shaped ((s.take p.arity).reverse.map Frame.trees)⟩ :: s.drop p.arity := by
  obtain ⟨q, hq, rfl⟩ := Option.map_eq_some_iff.mp h
  exact ⟨q, hq, rfl⟩

theorem IsPath.reduce (h : IsPath s) (hr : reduce? s p = some s') : IsPath s' := by
  obtain ⟨q, hq, rfl⟩ := reduce?_eq_some hr
  exact .cons (a := .phrase p.phrase) hq (h.drop _)

/-! ## The bound is not met -/

/-- A number that goes down with every production that is finished. -/
def effort : Stack → Nat
  | [] => 39
  | s@(f :: _) => 17 * (s.length + 1) - ((past f.state).head?.elim 0 Atom.rank)

/-- A phrase in the place of some frames is less effort, if there are two of them
or more, or it is of higher rank than the symbol of the only one. -/
theorem effort_lt_of_goto {n q : Nat} {m : Nonterminal} {ts : List (Tree Lexeme)}
    (hlen : n < s.length) (hq : goto? (top (s.drop (n + 1))) m = some q)
    (hrank : n = 0 → ∀ a, (past (top s)).head? = some a → a.rank < m.rank) :
    effort (⟨q, ts⟩ :: s.drop (n + 1)) < effort s := by
  obtain ⟨rest, hpast, -⟩ := past_of_step (a := .phrase m) hq
  have hdrop : (s.drop (n + 1)).length = s.length - (n + 1) := List.length_drop
  have hm := m.rank_le
  have hpos := m.rank_pos
  obtain ⟨f, s, rfl⟩ := List.exists_cons_of_length_pos (Nat.zero_lt_of_lt hlen)
  simp only [effort, hpast, List.length_cons, hdrop, List.head?_cons, Option.elim_some, Atom.rank]
  simp only [List.length_cons] at hlen ⊢
  change n = 0 → ∀ a, (past f.state).head? = some a → a.rank < m.rank at hrank
  cases hhead : (past f.state).head? with
  | none =>
    simp only [Option.elim_none]
    omega
  | some a =>
    have ha := a.rank_le
    have hone : n = 0 → a.rank < m.rank := fun hn => hrank hn a hhead
    simp only [Option.elim_some]
    omega

theorem effort_lt_of_reduce (h : IsPath s) (hp : complete? (top s) = some p)
    (hr : reduce? s p = some s') : effort s' < effort s := by
  obtain ⟨q, hq, rfl⟩ := reduce?_eq_some hr
  have hle := h.arity_le hp
  cases hn : p.arity with
  | zero =>
    -- the empty production is complete only where nothing has been read
    have hatoms : p.atoms = [] := List.eq_nil_of_length_eq_zero hn
    obtain rfl := h.eq_nil (eq_zero_of_complete hp hatoms)
    obtain ⟨rest, hpast, -⟩ := past_of_step (a := .phrase p.phrase) hq
    have hrank := p.phrase.rank_le
    simp only [effort, List.length_cons, List.length_drop, List.length_nil]
    omega
  | succ n =>
    rw [hn] at hle hq
    refine effort_lt_of_goto hle hq ?_
    rintro rfl a ha
    -- the symbol on top is the one that the production reads
    obtain ⟨b, hb⟩ := List.length_eq_one_iff.mp hn
    obtain ⟨more, hmore⟩ := past_of_complete hp
    rw [hb] at hmore
    rw [← hmore] at ha
    obtain rfl : b = a := Option.some.inj ha
    exact rank_lt_of_mem (mem_productions_of_complete hp) hb

theorem effort_lt_reductionBound (s : Stack) : effort s < reductionBound s := by
  have : Nonterminal.all.length = 39 := rfl
  unfold reductionBound
  cases s with
  | nil => simp [effort, this]
  | cons f s =>
    simp only [effort, List.length_cons, this]
    omega

theorem settleWithin_eq {n m : Nat} (h : IsPath s) (hn : effort s < n) (hm : effort s < m) :
    settleWithin k n s = settleWithin k m s := by
  induction n generalizing s m with
  | zero => omega
  | succ n ih =>
    obtain ⟨m, rfl⟩ : ∃ j, m = j + 1 := ⟨m - 1, by omega⟩
    unfold settleWithin
    split
    · rfl
    · rfl
    · rename_i p ha
      cases hr : reduce? s p with
      | none => rfl
      | some s' =>
        have hlt := effort_lt_of_reduce h (action?_eq_reduce.mp ha).2.1 hr
        exact ih (h.reduce hr) (by omega) (by omega)
    · rfl

/-- **Settling goes on after a production as if from anew.** -/
theorem settle_of_reduce (h : IsPath s) (ha : action? (top s) k = some (.reduce p))
    (hr : reduce? s p = some s') : settle s k = settle s' k := by
  have hlt := effort_lt_of_reduce h (action?_eq_reduce.mp ha).2.1 hr
  have hbound := effort_lt_reductionBound s
  unfold settle
  obtain ⟨n, hn⟩ : ∃ n, reductionBound s = n + 1 := ⟨reductionBound s - 1, by omega⟩
  rw [hn, settleWithin, ha]
  simp only [hr]
  exact settleWithin_eq (h.reduce hr) (by omega) (effort_lt_reductionBound s')

/-! ## Settling as a relation -/

/-- Finishing productions, one after the other, before a token of a kind. -/
inductive Finishes (k : TokenKind) : Stack → Stack → Prop
  | refl {s : Stack} : Finishes k s s
  | step {s s' s'' : Stack} {p : Production} :
      action? (top s) k = some (.reduce p) → reduce? s p = some s' → Finishes k s' s'' →
      Finishes k s s''

theorem Finishes.isPath (h : Finishes k s s') (hs : IsPath s) : IsPath s' := by
  induction h with
  | refl => exact hs
  | step _ hr _ ih => exact ih (hs.reduce hr)

theorem Finishes.settle_eq (h : Finishes k s s') (hs : IsPath s) :
    settle s k = settle s' k := by
  induction h with
  | refl => rfl
  | step ha hr _ ih => rw [settle_of_reduce hs ha hr, ih (hs.reduce hr)]

/-- What settling comes to, it has come to by finishing productions. -/
theorem finishes_of_settleWithin {n : Nat} :
    (∀ q, settleWithin k n s = .reads q s' → Finishes k s s' ∧
      step? (top s') (.token k) = some q) ∧
    (settleWithin k n s = .ends s' → Finishes k s s' ∧ top s' = accepting ∧ k = .endOfText) := by
  induction n generalizing s with
  | zero => simp [settleWithin]
  | succ n ih =>
    unfold settleWithin
    split
    · rename_i q ha
      simp only [Settled.reads.injEq, reduceCtorEq, false_implies, and_true]
      rintro r ⟨rfl, rfl⟩
      exact ⟨.refl, action?_eq_shift.mp ha⟩
    · rename_i ha
      simp only [Settled.ends.injEq, reduceCtorEq, false_implies, implies_true, true_and]
      rintro rfl
      exact ⟨.refl, action?_eq_accept.mp ha⟩
    · rename_i p ha
      cases hr : reduce? s p with
      | none => simp
      | some s₁ =>
        obtain ⟨hreads, hends⟩ := ih (s := s₁)
        exact ⟨fun q h => ⟨.step ha hr (hreads q h).1, (hreads q h).2⟩,
          fun h => ⟨.step ha hr (hends h).1, (hends h).2⟩⟩
    · simp

theorem settle_reads_iff (h : IsPath s) {q : Nat} :
    settle s k = .reads q s' ↔ Finishes k s s' ∧ step? (top s') (.token k) = some q := by
  constructor
  · intro hs
    exact finishes_of_settleWithin.1 q hs
  · rintro ⟨hf, hq⟩
    rw [hf.settle_eq h, settle]
    obtain ⟨n, hn⟩ : ∃ n, reductionBound s' = n + 1 :=
      ⟨reductionBound s' - 1, by have := effort_lt_reductionBound s'; omega⟩
    rw [hn, settleWithin, action?_eq_shift.mpr hq]

theorem settle_ends_iff (h : IsPath s) :
    settle s k = .ends s' ↔ Finishes k s s' ∧ top s' = accepting ∧ k = .endOfText := by
  constructor
  · intro hs
    exact finishes_of_settleWithin.2 hs
  · rintro ⟨hf, hq⟩
    rw [hf.settle_eq h, settle]
    obtain ⟨n, hn⟩ : ∃ n, reductionBound s' = n + 1 :=
      ⟨reductionBound s' - 1, by have := effort_lt_reductionBound s'; omega⟩
    rw [hn, settleWithin, action?_eq_accept.mpr hq]

end Stack

end Automaton

end LoxForms
