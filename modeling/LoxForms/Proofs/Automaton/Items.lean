import LoxForms.Proofs.Automaton.Settling
/-!
# What is being read

In each state some production is being read, up to one of its symbols. The table
names one such production for each state (`item?`), and where a state is
complete, the complete one is named as well. Wherever the symbols of such a
production lead to the state, its phrase can be finished before them: so there
is always a state to go to, for a production that is complete
(`IsPath.exists_reduce`) and also for one that is not (`IsPath.exists_goto`).
-/

namespace LoxForms

namespace Automaton

/-- A production that is being read in a state, and the number of its symbols
that have been read. -/
def item? (q : Nat) : Option (Production × Nat) :=
  farthest[q]?.bind fun item => Grammar.productions[item.1]?.map fun p => (p, item.2)

/-! ## What is checked of the table -/

namespace Source

variable (source : Source) (item : Nat → Option (Nat × Nat))

/-- Whether the symbols of a production lead to no state where it is what is
being read. The number says how many of them have been read. -/
def strays (i : Nat) (p : Production) : Nat → Nat → List Atom → Bool
  | _, q, [] => source.complete? q != some p
  | n, q, a :: as =>
    match source.walk? q [a] with
    | some r => item r != some (i, n + 1) && strays i p (n + 1) r as
    | none => true

/-- Whether nothing is being read after a state that its phrase cannot be
finished in. -/
def begins (q : Nat) : Bool :=
  ((source.row q).shifts.isEmpty && (source.row q).gotos.isEmpty) ||
    (List.range Grammar.productions.size).all fun i => (source.production i).all fun p =>
      ((source.row q).gotos.lookup p.phrase).isSome || source.strays item i p 0 q p.atoms

/-- Whether something has been read of a state's production, and not just a
phrase that is no lower than its own. -/
def advanced (q : Nat) : Bool :=
  q == 0 || q == accepting || (item q).any fun (i, n) => (source.production i).any fun p =>
    0 < n && n ≤ p.arity && (1 < n || p.atoms.head?.any fun a => a.rank < p.phrase.rank)

end Source

theorem begins_of_lt : ∀ q < states.size, table.begins (farthest[·]?) q := by
  rw [← quickTable_eq, ← find?_toList]
  decide +kernel

theorem advanced_of_lt : ∀ q < states.size, table.advanced (farthest[·]?) q := by
  rw [← quickTable_eq, ← find?_toList]
  decide +kernel

theorem complete?_zero {p : Production} (h : complete? 0 = some p) : p.phrase = .program := by
  obtain ⟨p', hp, hphrase⟩ := exists_complete_start
  obtain rfl := Option.some.inj (hp.symm.trans h)
  exact hphrase

/-! ## Where a production has begun -/

section

variable {q r n m i : Nat} {p : Production} {a : Atom} {as : List Atom}
variable {item : Nat → Option (Nat × Nat)}

/-- A symbol that is read from a state on which productions stray. -/
theorem strays_cons (h : table.strays item i p n q (a :: as)) (hstep : step? q a = some r) :
    item r ≠ some (i, n + 1) ∧ table.strays item i p (n + 1) r as := by
  rw [Source.strays, table_walk?, walk?_singleton, hstep] at h
  obtain ⟨hne, hrest⟩ := Bool.and_eq_true_iff.mp h
  exact ⟨bne_iff_ne.mp hne, hrest⟩

theorem complete?_ne_of_strays (h : table.strays item i p n q as) (hwalk : walk? q as = some r) :
    complete? r ≠ some p := by
  induction as generalizing q n with
  | nil =>
    obtain rfl := Option.some.inj hwalk
    exact bne_iff_ne.mp h
  | cons a as ih =>
    obtain ⟨q₁, hstep, hwalk⟩ := walk?_cons hwalk
    exact ih (strays_cons h hstep).2 hwalk

theorem item_ne_of_strays (h : table.strays item i p n q as) (hm : m < as.length)
    (hwalk : walk? q (as.take (m + 1)) = some r) : item r ≠ some (i, n + (m + 1)) := by
  induction as generalizing q n m with
  | nil => exact absurd hm (by simp)
  | cons a as ih =>
    obtain ⟨q₁, hstep, hwalk⟩ := walk?_cons hwalk
    obtain ⟨hne, hrest⟩ := strays_cons h hstep
    cases m with
    | zero =>
      obtain rfl := Option.some.inj hwalk
      exact hne
    | succ m =>
      have hlt : m < as.length := by
        rw [List.length_cons] at hm
        omega
      have hlater := ih hrest hlt hwalk
      rwa [show n + (m + 1 + 1) = n + 1 + (m + 1) by omega]

/-- Either the phrase of a production can be finished in a state, or its symbols
lead from there to no state where it is what is being read. -/
theorem goto_or_strays (hi : Grammar.productions[i]? = some p) (hstep : step? q a = some r) :
    (∃ q', goto? q p.phrase = some q') ∨ table.strays (farthest[·]?) i p 0 q p.atoms := by
  have hlt : i < Grammar.productions.size := (Array.getElem?_eq_some_iff.mp hi).1
  have hbegins := begins_of_lt q (lt_size_of_step hstep)
  rw [Source.begins, Bool.or_eq_true, Bool.and_eq_true] at hbegins
  rcases hbegins with ⟨hshifts, hgotos⟩ | hall
  · -- nothing is read in such a state
    cases a with
    | token k =>
      have hmem := mem_of_shift hstep
      rw [show (state q).shifts = [] from List.isEmpty_iff.mp hshifts] at hmem
      exact absurd hmem (by simp)
    | phrase n =>
      have hmem := mem_of_goto hstep
      rw [show (state q).gotos = [] from List.isEmpty_iff.mp hgotos] at hmem
      exact absurd hmem (by simp)
  · have hp := List.all_eq_true.mp hall i (List.mem_range.mpr hlt)
    rw [show table.production i = some p from hi, Option.all_some, Bool.or_eq_true] at hp
    exact hp.imp Option.isSome_iff_exists.mp id

/-- **Where a production is complete, its phrase could be finished when it
began.** -/
theorem goto_of_complete (hr : complete? r = some p) (hwalk : walk? q p.atoms = some r) :
    ∃ q', goto? q p.phrase = some q' := by
  obtain ⟨i, -, hi⟩ := Option.bind_eq_some_iff.mp hr
  cases hatoms : p.atoms with
  | nil =>
    rw [hatoms] at hwalk
    obtain rfl := Option.some.inj hwalk
    obtain rfl := eq_zero_of_complete hr hatoms
    rw [complete?_zero hr]
    exact ⟨accepting, goto_start⟩
  | cons a as =>
    have hwalk' := hwalk
    rw [hatoms] at hwalk'
    obtain ⟨q₁, hstep, -⟩ := walk?_cons hwalk'
    rcases goto_or_strays hi hstep with hgoto | hstrays
    · exact hgoto
    · exact absurd hr (complete?_ne_of_strays hstrays hwalk)

theorem item?_eq_some (h : item? r = some (p, n)) :
    ∃ i, farthest[r]? = some (i, n) ∧ Grammar.productions[i]? = some p := by
  obtain ⟨⟨i, m⟩, hitem, hp⟩ := Option.bind_eq_some_iff.mp h
  obtain ⟨p', hi, hpair⟩ := Option.map_eq_some_iff.mp hp
  obtain ⟨rfl, rfl⟩ := Prod.mk.inj hpair
  exact ⟨i, hitem, hi⟩

/-- **Where a production is being read, its phrase could be finished when it
began.** -/
theorem goto_of_item (hr : item? r = some (p, n + 1)) (hn : n < p.arity)
    (hwalk : walk? q (p.atoms.take (n + 1)) = some r) : ∃ q', goto? q p.phrase = some q' := by
  obtain ⟨i, hitem, hi⟩ := item?_eq_some hr
  obtain ⟨a, as, hatoms⟩ := List.exists_cons_of_length_pos (Nat.zero_lt_of_lt hn)
  have hwalk' := hwalk
  rw [hatoms, List.take_succ_cons] at hwalk'
  obtain ⟨q₁, hstep, -⟩ := walk?_cons hwalk'
  rcases goto_or_strays hi hstep with hgoto | hstrays
  · exact hgoto
  · have hne := item_ne_of_strays hstrays hn hwalk
    rw [Nat.zero_add] at hne
    exact absurd hitem hne

/-- **In every state but the first and the last, a production is being read**,
and its symbols are what has been read last. -/
theorem item_of_step (h : step? q a = some r) (hr : r ≠ accepting) :
    ∃ p n, item? r = some (p, n + 1) ∧ n < p.arity ∧ p ∈ Grammar.productions ∧
      past r = (p.atoms.take (n + 1)).reverse ∧
      (n = 0 → ∀ b, (past r).head? = some b → b.rank < p.phrase.rank) := by
  obtain ⟨rest, hpast, -⟩ := past_of_step h
  have hlt : r < states.size := by
    refine Nat.lt_of_not_le fun hle => ?_
    rw [past_of_size_le hle] at hpast
    exact absurd hpast (by simp)
  have hadvanced := advanced_of_lt r hlt
  rw [Source.advanced, Bool.or_assoc, Bool.or_eq_true, Bool.or_eq_true, beq_iff_eq,
    beq_iff_eq] at hadvanced
  have hany := (hadvanced.resolve_left (ne_zero_of_step h)).resolve_left hr
  obtain ⟨⟨i, m⟩, hfarthest, hp⟩ := (Option.any_eq_true _ _).mp hany
  obtain ⟨p, hi, hread⟩ := (Option.any_eq_true _ _).mp hp
  rw [Bool.and_eq_true, Bool.and_eq_true, Bool.or_eq_true, decide_eq_true_eq, decide_eq_true_eq,
    decide_eq_true_eq] at hread
  obtain ⟨⟨hpos, hle⟩, hrank⟩ := hread
  obtain ⟨n, rfl⟩ := Nat.exists_eq_succ_of_ne_zero (Nat.pos_iff_ne_zero.mp hpos)
  have hi : Grammar.productions[i]? = some p := hi
  have hread : past r = (p.atoms.take (n + 1)).reverse := by
    rw [past, if_neg hr, hfarthest]
    simp only [hi, Option.elim_some]
  refine ⟨p, n, by rw [item?, hfarthest, Option.bind_some, hi, Option.map_some], hle,
    Array.mem_of_getElem? hi, hread, ?_⟩
  rintro rfl b hb
  have hlow := hrank.resolve_left (by omega)
  cases hatoms : p.atoms with
  | nil =>
    rw [hatoms] at hlow
    exact absurd hlow (by simp)
  | cons c as =>
    rw [hread, hatoms] at hb
    obtain rfl : c = b := Option.some.inj hb
    rw [hatoms, List.head?_cons, Option.any_some, decide_eq_true_eq] at hlow
    exact hlow

namespace Stack

variable {s : Stack}

/-- What a state tells of its past leads to it from below. -/
theorem IsPath.walk (h : IsPath s) (has : as <+: past (top s)) :
    walk? (top (s.drop as.length)) as.reverse = some (top s) := by
  induction as generalizing s with
  | nil => rfl
  | cons a as ih =>
    cases h with
    | nil => exact absurd has not_prefix_past_zero
    | @cons f s b hstep hs =>
      obtain ⟨rfl, has'⟩ := prefix_of_step hstep has
      have hbelow := ih hs has'
      rw [List.length_cons, List.drop_succ_cons, List.reverse_cons, walk?_append, hbelow,
        Option.bind_some, walk?_singleton]
      exact hstep

/-- The symbols of a complete production lead to it from below. -/
theorem IsPath.walk_of_complete (h : IsPath s) (hp : complete? (top s) = some p) :
    walk? (top (s.drop p.arity)) p.atoms = some (top s) := by
  have hwalk := h.walk (past_of_complete hp)
  rwa [List.reverse_reverse, List.length_reverse] at hwalk

/-- **A production that is complete can be finished.** -/
theorem IsPath.exists_reduce (h : IsPath s) (hp : complete? (top s) = some p) :
    ∃ s', reduce? s p = some s' := by
  obtain ⟨q', hgoto⟩ := goto_of_complete hp (h.walk_of_complete hp)
  refine ⟨⟨q', p.shaped ((s.take p.arity).reverse.map Frame.trees)⟩ :: s.drop p.arity, ?_⟩
  simp only [reduce?, hgoto, Option.map_some]

/-- **A production that is being read can be finished** in the state where it
began, which is so many frames below. -/
theorem IsPath.exists_goto (h : IsPath s) (hr : item? (top s) = some (p, n + 1)) (hn : n < p.arity)
    (hpast : past (top s) = (p.atoms.take (n + 1)).reverse) :
    ∃ q', goto? (top (s.drop (n + 1))) p.phrase = some q' := by
  have hlen : (p.atoms.take (n + 1)).length = n + 1 := List.length_take_of_le hn
  have hprefix : (p.atoms.take (n + 1)).reverse <+: past (top s) :=
    ⟨[], by rw [List.append_nil, hpast]⟩
  have hwalk := h.walk hprefix
  rw [List.reverse_reverse, List.length_reverse, hlen] at hwalk
  exact goto_of_item hr hn hwalk

end Stack

end

end Automaton

end LoxForms
