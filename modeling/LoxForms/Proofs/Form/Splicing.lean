import LoxForms.Proofs.Form.FirstFault
/-!
# Lists among the parts of a form

The parts of a form can be in lists and tuples, and these again in others. None of that is
seen: a form is written with the leaves, which are what the lists hold in the end, one
after the other and each behind a blank. Parts that are grouped differently but have the
same leaves make the same form, or fail alike for the first leaf that has no text
(`parenthesize_regrouped`). All of it comes from one equation, `partsOfAll_eq_rendering`.
-/

namespace LoxForms

namespace Form

open Building Value

/-! ## Leaves -/

mutual

/-- The leaves of a part: those of its items, if it is a list or a tuple, and otherwise
the part itself. -/
def leaves : Value → List Value
  | .list items | .tuple items => leavesOfAll items
  | v => [v]

def leavesOfAll : List Value → List Value
  | [] => []
  | v :: vs => leaves v ++ leavesOfAll vs

end

/-- The text of a leaf: the form of an expression or a statement, the lexeme of a token, or
what stands for a text, a number or a truth value. -/
def rendering (v : Value) : Except Fault String :=
  if v.isExpression || v.isStatement then v.form
  else match v, plain? v with
    | .token _ lexeme _ _, _ => .ok lexeme
    | .nil, _ => flawed .missing
    | _, some s => .ok s
    | _, none => flawed (.notPart v.typeName)

variable {v : Value} {values values' : List Value}

theorem rendering_of_isNode (h : v.isNode) : rendering v = v.form := by
  have hsort : v.isExpression || v.isStatement := by
    cases v <;> first | rfl | exact absurd h Bool.false_ne_true
  exact if_pos hsort

/-- A node is one part, which is its form. -/
theorem parts_eq_form (h : v.isNode) : parts v = return [← v.form] := by
  obtain ⟨variant, hvariant⟩ := Option.isSome_iff_exists.mp h
  rw [Value.form, if_pos h, parts_node hvariant, node]
  generalize within variant _ = text
  cases text with
  | error fault => rfl
  | ok s =>
    show Except.ok [s] = Except.ok [String.join [s]]
    rw [String.join_cons, String.join_nil, String.append_empty]

/-- A leaf is one part, which is its text. -/
theorem parts_eq_rendering (hlist : ∀ items, v ≠ .list items) (htuple : ∀ items, v ≠ .tuple items) :
    parts v = return [← rendering v] := by
  by_cases hnode : v.isNode
  · rw [parts_eq_form hnode, rendering_of_isNode hnode]
  · cases v with
    | list items => exact absurd rfl (hlist items)
    | tuple items => exact absurd rfl (htuple items)
    | _ => first | rfl | exact absurd rfl hnode

mutual

theorem parts_eq_mapM_leaves (v : Value) : parts v = (leaves v).mapM rendering := by
  by_cases hlist : ∃ items, v = .list items
  · obtain ⟨items, rfl⟩ := hlist
    rw [parts, leaves, partsOfAll_eq_rendering]
  · by_cases htuple : ∃ items, v = .tuple items
    · obtain ⟨items, rfl⟩ := htuple
      rw [parts, leaves, partsOfAll_eq_rendering]
    · rw [not_exists] at hlist htuple
      rw [parts_eq_rendering hlist htuple, leaves, List.mapM_cons, List.mapM_nil]
      · rfl
      · exact hlist
      · exact htuple

/-- **Only the leaves are written**, one after the other. -/
theorem partsOfAll_eq_rendering (values : List Value) :
    partsOfAll values = (leavesOfAll values).mapM rendering := by
  match values with
  | [] => rfl
  | v :: vs =>
    rw [partsOfAll, leavesOfAll, List.mapM_append, parts_eq_mapM_leaves, partsOfAll_eq_rendering]

end

/-! ## Texts and faults of several leaves -/

section

variable {ε α β : Type} {f : α → Except ε β} {xs : List α} {ys : List β} {e : ε}

theorem mapM_eq_ok_iff : xs.mapM f = .ok ys ↔ xs.map f = ys.map .ok := by
  induction xs generalizing ys with
  | nil => rw [List.mapM_nil, pure_eq_ok, List.map_nil, List.nil_eq, List.map_eq_nil_iff]
  | cons x xs ih =>
    rw [List.mapM_cons, List.map_cons, bind_eq_ok]
    simp only [bind_eq_ok, pure_eq_ok, ih]
    constructor
    · rintro ⟨y, hy, ys, hys, rfl⟩
      rw [hy, hys, List.map_cons]
    · intro h
      obtain ⟨y, ys, rfl, hy, hys⟩ := List.map_eq_cons_iff.mp h.symm
      exact ⟨y, hy.symm, ys, hys.symm, rfl⟩

/-- What fails first is what is told. -/
theorem mapM_eq_error_iff : xs.mapM f = .error e ↔
    ∃ before x after, xs = before ++ x :: after ∧ (∀ y ∈ before, ∃ z, f y = .ok z) ∧
      f x = .error e := by
  constructor
  · intro h
    induction xs with
    | nil => exact nomatch h
    | cons x xs ih =>
      rw [List.mapM_cons] at h
      rcases bind_eq_error.mp h with hx | ⟨z, hz, h⟩
      · exact ⟨[], x, xs, rfl, List.forall_mem_nil _, hx⟩
      · rcases bind_eq_error.mp h with h | ⟨_, -, h⟩
        · obtain ⟨before, y, after, rfl, hbefore, hy⟩ := ih h
          exact ⟨x :: before, y, after, rfl, List.forall_mem_cons.mpr ⟨⟨z, hz⟩, hbefore⟩, hy⟩
        · exact absurd h pure_ne_error
  · rintro ⟨before, x, after, rfl, hbefore, hx⟩
    exact mapM_eq_error hbefore hx

end

theorem parenthesize_eq_ok_iff {head s : String} : parenthesize head values = .ok s ↔
    ∃ texts : List String, (leavesOfAll values).map rendering = texts.map .ok ∧
      s = parenthesized head texts := by
  simp only [parenthesize, bind_eq_ok, pure_eq_ok, partsOfAll_eq_rendering, mapM_eq_ok_iff]

theorem parenthesize_eq_error_iff {head : String} {fault : Fault} :
    parenthesize head values = .error fault ↔
      ∃ before leaf after, leavesOfAll values = before ++ leaf :: after ∧
        (∀ v ∈ before, ∃ text, rendering v = .ok text) ∧ rendering leaf = .error fault := by
  simp only [parenthesize, bind_eq_error, pure_ne_error, and_false, exists_false, or_false,
    partsOfAll_eq_rendering, mapM_eq_error_iff]

/-- **How the parts of a form are grouped is not seen.** Parts with the same leaves, in
lists and tuples of whatever kind and depth, come to the same text or to the same fault,
whatever the head is. The text has the head and then the texts of the leaves, and a blank
before each; the fault is that of the first leaf that has no text. And so two calls of one
callee whose arguments have the same leaves have the same form, or fail alike. -/
theorem parenthesize_regrouped (h : leavesOfAll values = leavesOfAll values') (head : String) :
    parenthesize head values = parenthesize head values' ∧
    (∀ s, parenthesize head values = .ok s ↔
      ∃ texts : List String, (leavesOfAll values).map rendering = texts.map .ok ∧
        s = "(" ++ head ++ String.join (texts.map (" " ++ ·)) ++ ")") ∧
    (∀ fault, parenthesize head values = .error fault ↔
      ∃ before leaf after, leavesOfAll values = before ++ leaf :: after ∧
        (∀ v ∈ before, ∃ text, rendering v = .ok text) ∧ rendering leaf = .error fault) ∧
    ∀ callee arguments arguments', leaves arguments = leaves arguments' →
      (Value.call callee arguments).form = (Value.call callee arguments').form := by
  refine ⟨?_, fun s => parenthesize_eq_ok_iff, fun fault => parenthesize_eq_error_iff, ?_⟩
  · rw [parenthesize, parenthesize, partsOfAll_eq_rendering, partsOfAll_eq_rendering, h]
  · intro callee arguments arguments' hleaves
    have hparts : parts arguments = parts arguments' := by
      rw [parts_eq_mapM_leaves, parts_eq_mapM_leaves, hleaves]
    have hcall : parts (.call callee arguments) = parts (.call callee arguments') := by
      rw [parts, parts, hparts]
    rw [Value.form, Value.form, hcall]
    rfl

/-- A group of a part that is missing, below another group, is what is told first. -/
theorem parenthesize_regrouped_missing :
    leavesOfAll [tuple [text "a", list []], list [grouping nil, tuple [nil]]] =
      leavesOfAll [list [text "a", tuple [list [grouping nil]]], nil] ∧
    parenthesize "f" [tuple [text "a", list []], list [grouping nil, tuple [nil]]] =
      parenthesize "f" [list [text "a", tuple [list [grouping nil]]], nil] ∧
    parenthesize "f" [tuple [text "a", list []], list [grouping nil, tuple [nil]]] =
      .error (.malformed ["Grouping"] .missing) := by
  have hleaves : leavesOfAll [tuple [text "a", list []], list [grouping nil, tuple [nil]]] =
      leavesOfAll [list [text "a", tuple [list [grouping nil]]], nil] := rfl
  obtain ⟨hsame, -, hfault, -⟩ := parenthesize_regrouped hleaves "f"
  refine ⟨hleaves, hsame, (hfault _).mpr ⟨[text "a"], grouping nil, [nil], rfl, ?_, rfl⟩⟩
  exact List.forall_mem_singleton.mpr ⟨"a", rfl⟩

end Form

end LoxForms
