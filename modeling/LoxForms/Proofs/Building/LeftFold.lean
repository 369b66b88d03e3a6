import LoxForms.Proofs.Building.Rules
/-!
# Chains of operators

A rule for the operators of one level has a chain for its children: an operand, and then
an operator and one more operand, again and again. `Building.fold` joins them from the
left, two children at a time.

Children that alternate like this come to a value that nests to the left, with a node for
each operator, and they can be read off its left spine again. Other children come to
nothing, and what is told is the first position that is not filled as it has to be
(`nested_or_first_faulty`). Both are read off one pass over the children,
`foldRest_cases`: what has been joined so far is nested, and the last operand of it stands
for all of it where positions are counted.
-/

namespace LoxForms

namespace Building

open Value

/-! ## Nesting to the left -/

/-- The nodes that chains are made of. -/
inductive Joint where
  | binary
  | logical
deriving DecidableEq, Repr

namespace Joint

def join : Joint → Value → Value → Value → Value
  | binary => .binary
  | logical => .logical

/-- The left operand, the operator and the right operand of a node. -/
def apart? : Joint → Value → Option (Value × Value × Value)
  | binary, .binary left operator right => some (left, operator, right)
  | logical, .logical left operator right => some (left, operator, right)
  | _, _ => none

/-- What stands along the left spine of a value, so many nodes down: the left operand that
remains, and then operator and right operand of each node, from the innermost outwards. -/
def spine? (joint : Joint) : Nat → Value → Option (List Value)
  | 0, v => some [v]
  | n + 1, v => do
    let (left, operator, right) ← joint.apart? v
    return (← joint.spine? n left) ++ [operator, right]

end Joint

/-- A chain of children, and the value that they come to from the left, with a node for
each operator. -/
inductive LeftNested (joint : Joint) : List Value → Value → Prop
  | operand (v : Value) : LeftNested joint [v] v
  | join {us : List Value} {left : Value} (operator right : Value) : LeftNested joint us left →
      LeftNested joint (us ++ [operator, right]) (joint.join left operator right)

variable {joint : Joint} {us : List Value} {a b last left operator v : Value}
variable {i : Nat} {e : Refusal}

theorem Joint.apart?_join :
    joint.apart? (joint.join left operator v) = some (left, operator, v) := by
  cases joint <;> rfl

/-- **The left spine is the chain**, for as many nodes as there are operators. -/
theorem LeftNested.spine?_eq (h : LeftNested joint us v) :
    ∃ n, us.length = 2 * n + 1 ∧ joint.spine? n v = some us := by
  induction h with
  | operand v => exact ⟨0, rfl, rfl⟩
  | join operator right _ ih =>
    obtain ⟨n, hlength, hspine⟩ := ih
    refine ⟨n + 1, ?_, ?_⟩
    · rw [List.length_append, hlength]
      rfl
    · rw [Joint.spine?, Joint.apart?_join]
      simp only [Option.bind_eq_bind, Option.bind_some, hspine, Option.pure_def]

/-! ## Positions -/

/-- Whether a child can stand at a position: operands and operators take turns. -/
def fits (i : Nat) (v : Value) : Bool := if i % 2 = 0 then v.isExpression else v.isToken

/-- There is an odd number of children, with expressions at the even positions and tokens
at the odd ones. -/
def Alternates (us : List Value) : Prop :=
  us.length % 2 = 1 ∧ ∀ i v, us[i]? = some v → fits i v

/-- What is wrong at a position: no child is left where an operand has to stand, or the
child that stands there is not of the sort. -/
inductive FaultyAt (us : List Value) : Nat → Refusal → Prop
  | missing : us.length % 2 = 0 → FaultyAt us us.length .missing
  | misplaced {i : Nat} {v : Value} : us[i]? = some v → fits i v = false → FaultyAt us i .misplaced

/-- The first position at which something is wrong. -/
def FirstFaulty (us : List Value) (i : Nat) (e : Refusal) : Prop :=
  FaultyAt us i e ∧ ∀ j < i, ∀ e', ¬FaultyAt us j e'

theorem fits_add_two (i : Nat) (v : Value) : fits (i + 2) v = fits i v := by
  rw [fits, Nat.add_mod_right, fits]

theorem FaultyAt.not_alternates (h : FaultyAt us i e) : ¬Alternates us := by
  rintro ⟨hodd, hfits⟩
  cases h with
  | missing heven => omega
  | misplaced hv hnot => exact Bool.false_ne_true (hnot.symm.trans (hfits _ _ hv))

theorem alternates_singleton (hv : v.isExpression) : Alternates [v] := by
  refine ⟨rfl, fun i w hw => ?_⟩
  obtain ⟨hi, rfl⟩ := List.getElem?_eq_some_iff.mp hw
  obtain rfl : i = 0 := Nat.lt_one_iff.mp hi
  exact hv

/-- An operand and an operator can be put before a chain. -/
theorem Alternates.cons_cons (h : Alternates us) (ha : a.isExpression) (hb : b.isToken) :
    Alternates (a :: b :: us) := by
  obtain ⟨hodd, hfits⟩ := h
  refine ⟨(Nat.add_mod_right us.length 2).trans hodd, fun i w hw => ?_⟩
  match i with
  | 0 => exact Option.some.inj hw ▸ ha
  | 1 => exact Option.some.inj hw ▸ hb
  | i + 2 => exact (fits_add_two i w).trans (hfits i w hw)

/-- The same is wrong two positions further on. -/
theorem faultyAt_add_two : FaultyAt (a :: b :: us) (i + 2) e ↔ FaultyAt us i e := by
  constructor
  · rintro (heven | ⟨hv, hnot⟩)
    · exact .missing ((Nat.add_mod_right us.length 2).symm.trans heven)
    · exact .misplaced hv ((fits_add_two i _).symm.trans hnot)
  · rintro (heven | ⟨hv, hnot⟩)
    · have heven : (a :: b :: us).length % 2 = 0 := (Nat.add_mod_right us.length 2).trans heven
      exact .missing heven
    · exact .misplaced hv ((fits_add_two i _).trans hnot)

theorem not_faultyAt (hv : us[i]? = some v) (hfits : fits i v) : ¬FaultyAt us i e := by
  intro h
  cases h with
  | missing => exact nomatch hv.symm.trans (List.getElem?_eq_none (Nat.le_refl _))
  | misplaced hw hnot =>
    obtain rfl := Option.some.inj (hv.symm.trans hw)
    exact Bool.false_ne_true (hnot.symm.trans hfits)

theorem firstFaulty_nil : FirstFaulty [] 0 .missing := ⟨.missing rfl, nofun⟩

theorem firstFaulty_operand (ha : a.isExpression = false) : FirstFaulty (a :: us) 0 .misplaced :=
  ⟨.misplaced rfl ha, nofun⟩

theorem firstFaulty_operator (ha : a.isExpression) (hb : b.isToken = false) :
    FirstFaulty (a :: b :: us) 1 .misplaced := by
  refine ⟨.misplaced rfl hb, fun j hj e' => ?_⟩
  obtain rfl := Nat.lt_one_iff.mp hj
  exact not_faultyAt rfl ha

/-- Nothing is wrong with an operand and an operator before the first fault. -/
theorem FirstFaulty.add_two (h : FirstFaulty us i e) (ha : a.isExpression) (hb : b.isToken) :
    FirstFaulty (a :: b :: us) (i + 2) e := by
  refine ⟨faultyAt_add_two.mpr h.1, fun j hj e' => ?_⟩
  match j with
  | 0 => exact not_faultyAt rfl ha
  | 1 => exact not_faultyAt rfl hb
  | j + 2 => exact fun hfaulty => h.2 j (by omega) e' (faultyAt_add_two.mp hfaulty)

/-! ## The pass over the children -/

theorem expression_of (h : v.isExpression) : expression v = .ok v := expression_eq_ok.mpr ⟨h, rfl⟩

theorem token_of (h : v.isToken) : token v = .ok v := token_eq_ok.mpr ⟨h, rfl⟩

theorem expression_refuses (h : v.isExpression = false) : expression v = .error .misplaced := by
  rw [expression, h]
  rfl

theorem token_refuses (h : v.isToken = false) : token v = .error .misplaced := by
  rw [token, h]
  rfl

/-- **Each step keeps the chain nested**, until there are no more children or one of them
is wrong. `last` is the operand that has been joined last. -/
theorem foldRest_cases (rest : List Value) (hleft : LeftNested joint us left)
    (hlast : last.isExpression) :
    (Alternates (last :: rest) ∧
      ∃ v, foldRest joint.join left rest = .ok v ∧ LeftNested joint (us ++ rest) v) ∨
    ∃ i e, FirstFaulty (last :: rest) i e ∧ foldRest joint.join left rest = .error e := by
  induction left, rest using foldRest.induct joint.join generalizing us last with
  | case1 left =>
    refine .inl ⟨alternates_singleton hlast, left, rfl, ?_⟩
    rwa [List.append_nil]
  | case2 left operator =>
    refine .inr ?_
    cases ho : operator.isToken with
    | false =>
      refine ⟨1, _, firstFaulty_operator hlast ho, ?_⟩
      rw [foldRest, token_refuses ho]
      rfl
    | true =>
      refine ⟨2, _, firstFaulty_nil.add_two hlast ho, ?_⟩
      rw [foldRest, token_of ho]
      rfl
  | case3 left operator right rest ih =>
    cases ho : operator.isToken with
    | false =>
      refine .inr ⟨1, _, firstFaulty_operator hlast ho, ?_⟩
      rw [foldRest, token_refuses ho]
      rfl
    | true =>
      cases hr : right.isExpression with
      | false =>
        refine .inr ⟨2, _, (firstFaulty_operand hr).add_two hlast ho, ?_⟩
        rw [foldRest, token_of ho, expression_refuses hr]
        rfl
      | true =>
        have hstep : foldRest joint.join left (operator :: right :: rest) =
            foldRest joint.join (joint.join left operator right) rest := by
          rw [foldRest, token_of ho, expression_of hr]
          rfl
        rw [hstep]
        -- The right operand has been joined last, and all positions are two further on.
        rcases ih operator right (hleft.join operator right) hr with
          ⟨halternates, v, hv, hnested⟩ | ⟨i, e, hfaulty, he⟩
        · refine .inl ⟨halternates.cons_cons hlast ho, v, hv, ?_⟩
          rwa [List.append_assoc] at hnested
        · exact .inr ⟨i + 2, e, hfaulty.add_two hlast ho, he⟩

/-- **A chain is folded to the left, and nothing else is folded.** Children that alternate
come to the value that nests to the left, with a node for each operator, and they are what
stands along its left spine. Any other children are refused for the first position at
which there is no child, or one of the wrong sort. -/
theorem nested_or_first_faulty (joint : Joint) (us : List Value) :
    (Alternates us ∧ ∃ v n, fold joint.join us = .ok v ∧ LeftNested joint us v ∧
      us.length = 2 * n + 1 ∧ joint.spine? n v = some us) ∨
    (¬Alternates us ∧ ∃ i e, FirstFaulty us i e ∧ fold joint.join us = .error e) := by
  have hrefused {i : Nat} {e : Refusal} (hfaulty : FirstFaulty us i e)
      (he : fold joint.join us = .error e) :
      ¬Alternates us ∧ ∃ i e, FirstFaulty us i e ∧ fold joint.join us = .error e :=
    ⟨hfaulty.1.not_alternates, i, e, hfaulty, he⟩
  cases us with
  | nil => exact .inr (hrefused firstFaulty_nil rfl)
  | cons first rest =>
    cases hfirst : first.isExpression with
    | false =>
      refine .inr (hrefused (firstFaulty_operand hfirst) ?_)
      rw [fold, expression_refuses hfirst]
      rfl
    | true =>
      have hfold : fold joint.join (first :: rest) = foldRest joint.join first rest := by
        rw [fold, expression_of hfirst]
        rfl
      have hfirstNested : LeftNested joint [first] first := .operand first
      rcases foldRest_cases rest hfirstNested hfirst with
        ⟨halternates, v, hv, hnested⟩ | ⟨i, e, hfaulty, he⟩
      · obtain ⟨n, hlength, hspine⟩ := hnested.spine?_eq
        exact .inl ⟨halternates, v, n, hfold.trans hv, hnested, hlength, hspine⟩
      · exact .inr (hrefused hfaulty (hfold.trans he))

/-- Two operators nest to the left. -/
example : fold binary [this, .token .minus "-" nil 1, literal nil, .token .plus "+" nil 1, this] =
    .ok (binary (binary this (.token .minus "-" nil 1) (literal nil))
      (.token .plus "+" nil 1) this) := rfl

end Building

end LoxForms
