import LoxForms.Proofs.Form.Printable
/-!
# The first fault is told

A value that is not what is asked has a first fault: something wrong that is looked at
after nothing wrong, whatever comes after it. `FirstFault` goes down to it, by way of what
is looked at, and collects the nodes on the way. There is one such way only, and what is
told is the defect at its end, below the names of these nodes (`form_or_first_fault`).
-/

namespace LoxForms

namespace Form

open Value

/-- The first thing wrong with a value of which something is asked, and the nodes in whose
fields it is, the outermost first. What is looked at before it is what is asked, and
nothing is said of what comes after it. -/
inductive FirstFault : Demand → Value → List Value → Defect → Prop
  | here {d : Demand} {v : Value} {defect : Defect} :
      inspect d v = .faulty defect → FirstFault d v [] defect
  /-- Lists and tuples, and whatever else one goes through, are passed by. -/
  | through {d : Demand} {v : Value} {before after : List (Demand × Value)} {x : Demand × Value}
      {chain : List Value} {defect : Defect} :
      inspect d v = .through (before ++ x :: after) → (∀ y ∈ before, Meets y.1 y.2) →
      FirstFault x.1 x.2 chain defect → FirstFault d v chain defect
  | node {d : Demand} {v : Value} {before after : List (Demand × Value)} {x : Demand × Value}
      {chain : List Value} {defect : Defect} :
      inspect d v = .node → fields v = before ++ x :: after → (∀ y ∈ before, Meets y.1 y.2) →
      FirstFault x.1 x.2 chain defect → FirstFault d v (v :: chain) defect

variable {d : Demand} {v : Value} {chain chain' : List Value} {defect defect' : Defect}

/-! ## What is told -/

theorem typeName_of_variant {variant : Variant} (h : v.variant? = some variant) :
    v.typeName = variant.name := by
  unfold typeName
  rw [h]

theorem Defect.within_told {variant : Variant} (h : v.variant? = some variant) :
    (defect.told chain).within variant = defect.told (v :: chain) := by
  cases defect with
  | flaw f => rw [told, told, Fault.within, List.map_cons, typeName_of_variant h]
  | noElements t => rfl

theorem mapM_eq_error {α β ε : Type} {f : α → Except ε β} {before after : List α} {x : α} {e : ε}
    (hbefore : ∀ y ∈ before, ∃ z, f y = .ok z) (hx : f x = .error e) :
    (before ++ x :: after).mapM f = .error e := by
  induction before with
  | nil =>
    rw [List.nil_append, List.mapM_cons, hx]
    rfl
  | cons y before ih =>
    rw [List.forall_mem_cons] at hbefore
    obtain ⟨⟨z, hz⟩, hbefore⟩ := hbefore
    rw [List.cons_append, List.mapM_cons, hz, ih hbefore]
    rfl

/-- **What is wrong first is told**, below the nodes in whose fields it is. -/
theorem FirstFault.look_eq (h : FirstFault d v chain defect) :
    look d v = .error (defect.told chain) := by
  induction h with
  | here hi =>
    rw [Form.look_eq, hi]
    rfl
  | through hi hbefore _ ih =>
    rw [Form.look_eq, hi, Inspection.outcome,
      mapM_eq_error (fun y hy => ⟨_, (hbefore y hy).look_eq⟩) ih]
    rfl
  | node hi hfields hbefore _ ih =>
    obtain ⟨variant, hvariant⟩ := Option.isSome_iff_exists.mp (isNode_of_inspect hi)
    rw [Form.look_eq, hi, Inspection.outcome, parts_node hvariant, hfields,
      mapM_eq_error (fun y hy => ⟨_, (hbefore y hy).look_eq⟩) ih, ← Defect.within_told hvariant]
    rfl

theorem FirstFault.not_meets (h : FirstFault d v chain defect) : ¬Meets d v :=
  fun hmeets => nomatch hmeets.look_eq.symm.trans h.look_eq

/-! ## There is a first fault, and no other -/

theorem forall_or_first {α : Type} (p : α → Prop) (xs : List α) :
    (∀ x ∈ xs, p x) ∨
      ∃ before x after, xs = before ++ x :: after ∧ (∀ y ∈ before, p y) ∧ ¬p x := by
  induction xs with
  | nil => exact .inl (by simp)
  | cons x xs ih =>
    by_cases hx : p x
    · rcases ih with h | ⟨before, y, after, rfl, hbefore, hy⟩
      · exact .inl (List.forall_mem_cons.mpr ⟨hx, h⟩)
      · exact .inr ⟨x :: before, y, after, rfl, List.forall_mem_cons.mpr ⟨hx, hbefore⟩, hy⟩
    · exact .inr ⟨[], x, xs, rfl, by simp, hx⟩

/-- Where a list is first not as it is to be does not depend on how one looks at it. -/
theorem first_unique {α : Type} {p : α → Prop} {before before' after after' : List α} {x x' : α}
    (h : before ++ x :: after = before' ++ x' :: after') (hbefore : ∀ y ∈ before, p y)
    (hbefore' : ∀ y ∈ before', p y) (hx : ¬p x) (hx' : ¬p x') : x = x' := by
  induction before generalizing before' with
  | nil =>
    cases before' with
    | nil => exact (List.cons.inj h).1
    | cons y before' => exact absurd ((List.cons.inj h).1 ▸ hbefore' y (.head _)) hx
  | cons y before ih =>
    cases before' with
    | nil => exact absurd ((List.cons.inj h).1 ▸ hbefore y (.head _)) hx'
    | cons y' before' =>
      exact ih (List.cons.inj h).2 (fun z hz => hbefore z (.tail _ hz))
        (fun z hz => hbefore' z (.tail _ hz))

/-- A value that is not what is asked has a first fault. -/
theorem exists_firstFault {d : Demand} {v : Value} (h : ¬Meets d v) :
    ∃ chain defect, FirstFault d v chain defect := by
  rw [← isFine_inspect] at h
  generalize hi : inspect d v = i at h
  cases i with
  | shown ts => exact absurd trivial h
  | faulty defect => exact ⟨[], defect, .here hi⟩
  | through items =>
    obtain hall | ⟨before, x, after, rfl, hbefore, hx⟩ :=
      forall_or_first (fun x : Demand × Value => Meets x.1 x.2) items
    · exact absurd hall h
    · obtain ⟨chain, defect, hfault⟩ := exists_firstFault hx
      exact ⟨chain, defect, .through hi hbefore hfault⟩
  | node =>
    obtain hall | ⟨before, x, after, hfields, hbefore, hx⟩ :=
      forall_or_first (fun x : Demand × Value => Meets x.1 x.2) (fields v)
    · exact absurd hall h
    · obtain ⟨chain, defect, hfault⟩ := exists_firstFault hx
      exact ⟨v :: chain, defect, .node hi hfields hbefore hfault⟩
termination_by weight d v
decreasing_by
  · exact weight_item_lt hi (by simp)
  · exact weight_field_lt hi (by simp [hfields])

theorem FirstFault.unique (h : FirstFault d v chain defect) (h' : FirstFault d v chain' defect') :
    chain = chain' ∧ defect = defect' := by
  induction h generalizing chain' with
  | here hi =>
    cases h' with
    | here hi' => exact ⟨rfl, Inspection.faulty.inj (hi.symm.trans hi')⟩
    | through hi' => exact nomatch hi.symm.trans hi'
    | node hi' => exact nomatch hi.symm.trans hi'
  | through hi hbefore hx ih =>
    cases h' with
    | here hi' => exact nomatch hi.symm.trans hi'
    | through hi' hbefore' hx' =>
      obtain rfl := first_unique (p := fun x : Demand × Value => Meets x.1 x.2)
        (Inspection.through.inj (hi.symm.trans hi')) hbefore hbefore' hx.not_meets hx'.not_meets
      exact ih hx'
    | node hi' => exact nomatch hi.symm.trans hi'
  | node hi hfields hbefore hx ih =>
    cases h' with
    | here hi' => exact nomatch hi.symm.trans hi'
    | through hi' => exact nomatch hi.symm.trans hi'
    | node hi' hfields' hbefore' hx' =>
      obtain rfl := first_unique (p := fun x : Demand × Value => Meets x.1 x.2)
        (hfields.symm.trans hfields') hbefore hbefore' hx.not_meets hx'.not_meets
      obtain ⟨rfl, rfl⟩ := ih hx'
      exact ⟨rfl, rfl⟩

/-! ## The nodes around it -/

theorem FirstFault.isNode_of_mem (h : FirstFault d v chain defect) : ∀ n ∈ chain, n.isNode := by
  induction h with
  | here => simp
  | through _ _ _ ih => exact ih
  | node hi _ _ _ ih => exact List.forall_mem_cons.mpr ⟨isNode_of_inspect hi, ih⟩

/-- The outermost node is the value itself, if it is one. -/
theorem FirstFault.head?_chain {m : Members} (h : FirstFault (.member m) v chain defect) :
    chain.head? = if m.includes v then some v else none := by
  cases h with
  | here hi =>
    rw [inspect] at hi
    split at hi
    next => cases hi
    next hm => rw [if_neg hm, List.head?_nil]
  | through hi =>
    rw [inspect] at hi
    split at hi <;> cases hi
  | node hi =>
    rw [inspect] at hi
    split at hi
    next hm => rw [if_pos hm, List.head?_cons]
    next => cases hi

end Form

open Form

/-- **A value has a form, or what is told is its first fault**, below the nodes around it:
these begin with the value itself, if it is a node, and each of them is a node. -/
theorem Value.form_or_first_fault (v : Value) :
    (∃ s, v.form = .ok s) ∨
      ∃ chain defect, FirstFault (.member .nodes) v chain defect ∧
        (∀ chain' defect', FirstFault (.member .nodes) v chain' defect' →
          chain' = chain ∧ defect' = defect) ∧
        chain.head? = (if v.isNode then some v else none) ∧ (∀ n ∈ chain, n.isNode) ∧
        v.form = .error (defect.told chain) := by
  by_cases hv : v.Printable
  · exact .inl ⟨v.tabled, hv.form_eq⟩
  · obtain ⟨chain, defect, h⟩ := exists_firstFault hv
    refine .inr ⟨chain, defect, h, fun _ _ h' => h'.unique h, h.head?_chain, h.isNode_of_mem, ?_⟩
    rw [form_eq, h.look_eq]
    rfl

/-- An operand is missing below three nodes, and so is what comes after it. -/
example :
    let token := Value.token .plus "+" .nil 1
    (Value.block (.list [.ifStatement (.binary .this token .nil) .nil .nil, .nil])).form =
      .error (.malformed ["Block", "If", "Binary"] .missing) := rfl

end LoxForms
