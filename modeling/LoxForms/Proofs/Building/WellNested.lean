import LoxForms.Proofs.Building.Lines
import LoxForms.Proofs.Building.Made
import LoxForms.Proofs.Building.Parts
/-!
# Nodes that are well nested

What is to hold of every node of a program: that each part is of the sort that its
role takes, and that the operands of an operator hold together as tightly as they
have to. The left operand holds together at least as tightly as the operator binds,
and the right one more tightly, so that operators of one level nest to the left. What
is called or has a property holds together most tightly of all.

An assignment is an expression that no operand can be. So it stands only in the roles
that take any expression (`Role.takesAssignment`).
-/

namespace LoxForms

open Building

namespace Value

def tokenKind? : Value → Option TokenKind
  | token k _ _ _ => some k
  | _ => none

def isAssignment : Value → Bool
  | assign .. | set .. => true
  | _ => false

/-- What a literal can stand for. -/
def isPlain : Value → Bool
  | nil | bool _ | float _ | text _ => true
  | _ => false

namespace Role

/-- The sort of value that stands in a role. -/
def Admits : Role → Value → Prop
  | token, v => v.isToken
  | operand, v => v.isExpression ∧ v.isAssignment = false
  | whole, v | argument, v | grouped, v | assigned, v | condition, v => v.isExpression
  | initializer, v | returned, v => Optional Value.isExpression v
  | denoted, v => v.isPlain
  | statement, v | branch, v => v.isStatement
  | elseBranch, v => Optional Value.isStatement v
  | base, v => v = nil ∨ ∃ name, v = variableName name
  | method, v => ∃ name params body, v = functionDeclaration name params body
  | item, _ => True

/-- Whether an assignment can stand in a role. -/
def takesAssignment : Role → Bool
  | whole | argument | grouped | assigned | initializer | condition | returned | item => true
  | token | operand | denoted | statement | branch | elseBranch | base | method => false

end Role

/-- An expression that holds together so tightly at least. -/
def IsOperand (least : Nat) (v : Value) : Prop := v.isExpression ∧ least ≤ v.tightness

/-- A token of one of several kinds. -/
def IsKindIn (ks : List TokenKind) (v : Value) : Prop := ∃ k ∈ ks, v.tokenKind? = some k

/-- Whether a node's operator is one of its own, and its operands hold together as
tightly as they have to. -/
def HoldsOperands : Value → Prop
  | binary left operator right =>
    IsKindIn TokenKind.binaryOperators operator ∧
      IsOperand (binary left operator right).tightness left ∧
      IsOperand ((binary left operator right).tightness + 1) right
  | logical left operator right =>
    IsKindIn TokenKind.logicalOperators operator ∧
      IsOperand (logical left operator right).tightness left ∧
      IsOperand ((logical left operator right).tightness + 1) right
  | unary operator right => IsKindIn TokenKind.unaryOperators operator ∧ IsOperand 7 right
  | call callee _ => IsOperand 8 callee
  | get owner _ | set owner _ _ => IsOperand 8 owner
  | _ => True

/-- **A node whose parts are where they can be.** -/
structure WellNested (v : Value) : Prop where
  operands : v.HoldsOperands
  sorts : ∀ part ∈ v.subvalues, part.1.Admits part.2
  /-- An assignment stands only where a whole expression does. -/
  assignments : ∀ part ∈ v.subvalues, part.2.isAssignment → part.1.takesAssignment

/-- A part that is of the sort for its role, and well nested throughout. -/
def Placed (part : Role × Value) : Prop :=
  part.1.Admits part.2 ∧ part.2.Throughout WellNested

section

variable {v o r l e : Value} {role : Role} {m : Nat} {items : List Value}

/-! ## Sorts -/

theorem isAssignment_of_isStatement (h : v.isStatement) : v.isAssignment = false := by
  cases v <;> first | rfl | exact nomatch h

theorem isAssignment_of_isToken (h : v.isToken) : v.isAssignment = false := by
  cases v <;> first | rfl | exact nomatch h

theorem isAssignment_of_tightness (h : 1 ≤ v.tightness) : v.isAssignment = false := by
  cases v <;> first | rfl | exact absurd h (Nat.not_succ_le_zero 0)

theorem isAssignment_of_isPlain (h : v.isPlain) : v.isAssignment = false := by
  cases v <;> first | rfl | exact nomatch h

/-- **Where any expression can stand an assignment can**, and nowhere else. -/
theorem Role.takesAssignment_of_admits (h : role.Admits v) (hv : v.isAssignment) :
    role.takesAssignment := by
  have hnot : v.isAssignment ≠ false := by simp [hv]
  cases role with
  | token => exact absurd (isAssignment_of_isToken h) hnot
  | operand => exact absurd h.2 hnot
  | denoted => exact absurd (isAssignment_of_isPlain h) hnot
  | statement | branch => exact absurd (isAssignment_of_isStatement h) hnot
  | elseBranch =>
    rcases h with rfl | h
    · exact nomatch hv
    · exact absurd (isAssignment_of_isStatement h) hnot
  | base =>
    rcases h with rfl | ⟨name, rfl⟩
    · exact nomatch hv
    · exact nomatch hv
  | method =>
    obtain ⟨_, _, _, rfl⟩ := h
    exact nomatch hv
  | _ => rfl

/-- What a lexeme denotes is plain. -/
theorem isPlain_of_denotes {l : Lexeme} (h : l.Denotes v) : v.isPlain := by
  unfold Lexeme.Denotes at h
  split at h
  · obtain ⟨x, -, rfl⟩ := h
    rfl
  · subst h
    rfl
  · subst h
    rfl

theorem exists_token_of_isToken (h : v.isToken) :
    ∃ k text denoted line, v = token k text denoted line := by
  cases v <;> first | exact ⟨_, _, _, _, rfl⟩ | exact nomatch h

theorem IsOperand.admits (h : IsOperand m v) (hm : 0 < m) : Role.operand.Admits v :=
  ⟨h.1, isAssignment_of_tightness (Nat.le_trans hm h.2)⟩

/-- The items of what can be a list, or be left out. -/
theorem throughout_listed {P : Value → Prop} (h : v.Throughout P) (hv : Listed v items) :
    ∀ u ∈ items, u.Throughout P := by
  rcases hv with ⟨-, rfl⟩ | rfl
  · exact List.forall_mem_nil _
  · exact fun u hu => h.part (List.mem_map.mpr ⟨u, hu, rfl⟩ : (.item, u) ∈ (list items).subvalues)

/-! ## Nodes, from what is known of their parts -/

theorem throughout_wellNested :
    v.Throughout WellNested ↔ v.HoldsOperands ∧ ∀ part ∈ v.subvalues, Placed part := by
  rw [throughout_iff]
  constructor
  · rintro ⟨h, hparts⟩
    exact ⟨h.operands, fun part hpart => ⟨h.sorts part hpart, hparts part hpart⟩⟩
  · rintro ⟨h, hparts⟩
    exact ⟨⟨h, fun part hpart => (hparts part hpart).1,
      fun part hpart => Role.takesAssignment_of_admits (hparts part hpart).1⟩,
      fun part hpart => (hparts part hpart).2⟩

theorem placed_one {a : Role × Value} (ha : Placed a) : ∀ part ∈ [a], Placed part :=
  List.forall_mem_singleton.mpr ha

theorem placed_two {a b : Role × Value} (ha : Placed a) (hb : Placed b) :
    ∀ part ∈ [a, b], Placed part :=
  List.forall_mem_cons.mpr ⟨ha, placed_one hb⟩

theorem placed_three {a b c : Role × Value} (ha : Placed a) (hb : Placed b) (hc : Placed c) :
    ∀ part ∈ [a, b, c], Placed part :=
  List.forall_mem_cons.mpr ⟨ha, placed_two hb hc⟩

/-- The items of a list are placed where the list is, if they can be there. -/
theorem placed_each (hsort : ∀ u ∈ items, role.Admits u)
    (h : ∀ u ∈ items, u.Throughout WellNested) : ∀ part ∈ each role (list items), Placed part := by
  rw [each, List.forall_mem_map]
  exact fun u hu => ⟨hsort u hu, h u hu⟩

/-- Plain data have no parts. -/
theorem wellNested_of_isPlain (h : v.isPlain) : v.Throughout WellNested := by
  cases v <;>
    first
    | exact throughout_wellNested.mpr ⟨trivial, List.forall_mem_nil _⟩
    | exact nomatch h

theorem wellNested_nil : nil.Throughout WellNested := wellNested_of_isPlain rfl

theorem wellNested_list : (list items).Throughout WellNested ↔
    ∀ u ∈ items, u.Throughout WellNested := by
  rw [throughout_wellNested, subvalues, List.forall_mem_map]
  exact ⟨fun h u hu => (h.2 u hu).2, fun h => ⟨trivial, fun u hu => ⟨trivial, h u hu⟩⟩⟩

theorem wellNested_literal (h : v.isPlain) : (literal v).Throughout WellNested :=
  throughout_wellNested.mpr ⟨trivial, placed_one ⟨h, wellNested_of_isPlain h⟩⟩

/-! ### Loops -/

theorem wellNested_while {condition body : Value} (hcondition : Placed (.condition, condition))
    (hbody : Placed (.branch, body)) : (whileStatement condition body).Throughout WellNested :=
  throughout_wellNested.mpr ⟨trivial, placed_two hcondition hbody⟩

theorem wellNested_block (h : ∀ s ∈ items, Placed (.statement, s)) :
    (block (list items)).Throughout WellNested := by
  refine throughout_wellNested.mpr ⟨trivial, ?_⟩
  rw [subvalues, each, List.forall_mem_map]
  exact h

theorem wellNested_expressionStatement (h : Placed (.whole, e)) :
    (expressionStatement e).Throughout WellNested :=
  throughout_wellNested.mpr ⟨trivial, placed_one h⟩

/-- **The loop that a `for` stands for** is well nested. -/
theorem wellNested_forLoop {initializer condition increment body : Value}
    (hinitializer : Placed (.elseBranch, initializer)) (hcondition : Placed (.returned, condition))
    (hincrement : Placed (.returned, increment)) (hbody : Placed (.statement, body)) :
    Placed (.statement, forLoop initializer condition increment body) := by
  have hwhile : ∀ body : Value, Placed (.statement, body) →
      Placed (.statement, forLoop .nil condition .nil body) := by
    intro body hbody
    rcases hcondition with ⟨rfl | hexpression, hnested⟩
    · have htrue : Placed (.condition, literal (bool true)) :=
        ⟨rfl, wellNested_literal rfl⟩
      exact ⟨rfl, wellNested_while htrue hbody⟩
    · rw [forLoop_of_condition (ne_nil_of_isExpression hexpression)]
      exact ⟨rfl, wellNested_while ⟨hexpression, hnested⟩ hbody⟩
  have hloop : Placed (.statement, forLoop .nil condition increment body) := by
    rcases hincrement with ⟨rfl | hexpression, hnested⟩
    · exact hwhile body hbody
    · rw [forLoop_of_increment (ne_nil_of_isExpression hexpression)]
      have hstep : Placed (.statement, expressionStatement increment) :=
        ⟨rfl, wellNested_expressionStatement ⟨hexpression, hnested⟩⟩
      exact hwhile _ ⟨rfl, wellNested_block (by simpa using ⟨hbody, hstep⟩)⟩
  rcases hinitializer with ⟨rfl | hstatement, hnested⟩
  · exact hloop
  · rw [forLoop_of_initializer (ne_nil_of_isStatement hstatement)]
    have hfirst : Placed (.statement, initializer) := ⟨hstatement, hnested⟩
    exact ⟨rfl, wellNested_block (by simpa using ⟨hfirst, hloop⟩)⟩

/-! ## Operators -/

/-- An operand that is well nested throughout. -/
def Operand (least : Nat) (v : Value) : Prop := IsOperand least v ∧ v.Throughout WellNested

theorem Operand.placed (h : Operand m v) (hm : 0 < m) : Placed (.operand, v) :=
  ⟨h.1.admits hm, h.2⟩

/-- A node of an operator and two operands. -/
theorem operand_of_subvalues (hparts : v.subvalues = [(.operand, l), (.token, o), (.operand, r)])
    (hv : v.isExpression) (hm : 0 < m) (ho : Placed (.token, o)) (hl : Operand m l)
    (hr : Operand (m + 1) r) (hholds : v.HoldsOperands) (hlevel : v.tightness = m) :
    Operand m v := by
  refine ⟨⟨hv, Nat.le_of_eq hlevel.symm⟩, throughout_wellNested.mpr ⟨hholds, ?_⟩⟩
  rw [hparts]
  exact placed_three (hl.placed hm) ho (hr.placed (Nat.succ_pos m))

/-- What an operator on a level makes of its operands. -/
def Joins (join : Value → Value → Value → Value) (ks : List TokenKind) (m : Nat) : Prop :=
  ∀ l o r, IsKindIn ks o → Placed (.token, o) → Operand m l → Operand (m + 1) r →
    Operand m (join l o r)

theorem joins_binary {ks : List TokenKind}
    (hks : ∀ k ∈ ks, k ∈ TokenKind.binaryOperators ∧ k.strength = m) (hm : 0 < m) :
    Joins .binary ks m := by
  rintro l o r ⟨k, hk, hkind⟩ ho hl hr
  obtain ⟨_, text, denoted, line, rfl⟩ := exists_token_of_isToken ho.1
  obtain rfl := Option.some.inj hkind
  obtain ⟨hoperator, hlevel⟩ := hks _ hk
  refine operand_of_subvalues rfl rfl hm ho hl hr ?_ hlevel
  simp only [HoldsOperands, tightness, hlevel]
  exact ⟨⟨_, hoperator, rfl⟩, hl.1, hr.1⟩

theorem joins_logical {ks : List TokenKind}
    (hks : ∀ k ∈ ks, k ∈ TokenKind.logicalOperators ∧ k.strength = m) (hm : 0 < m) :
    Joins .logical ks m := by
  rintro l o r ⟨k, hk, hkind⟩ ho hl hr
  obtain ⟨_, text, denoted, line, rfl⟩ := exists_token_of_isToken ho.1
  obtain rfl := Option.some.inj hkind
  obtain ⟨hoperator, hlevel⟩ := hks _ hk
  refine operand_of_subvalues rfl rfl hm ho hl hr ?_ hlevel
  simp only [HoldsOperands, tightness, hlevel]
  exact ⟨⟨_, hoperator, rfl⟩, hl.1, hr.1⟩

end

/-! ## No containers -/

/-- Whether a value holds others in no particular role. -/
def isContainer : Value → Bool
  | list _ | tuple _ | dictionary _ | tree .. => true
  | _ => false

section

variable {u v w : Value} {role : Role}

theorem item_not_mem_each (h : role ≠ .item) : (.item, u) ∉ each role v :=
  fun hmem => h (role_of_mem_each hmem).symm

theorem ne_item_of_mem (hv : v.isContainer = false) (h : (role, u) ∈ v.subvalues) :
    role ≠ .item := by
  rintro rfl
  cases v <;> simp_all [subvalues, isContainer, item_not_mem_each]

theorem isContainer_of_admits (h : role.Admits v) (hrole : role ≠ .item) :
    v.isContainer = false := by
  cases v with
  | list | tuple | dictionary | tree =>
    cases role <;> simp_all [Role.Admits, Optional, isToken, isExpression, isStatement, isPlain,
      variant?]
  | _ => rfl

/-- **Nothing in a node is a container**: where lists are, they are gone through. -/
theorem Within.isContainer_eq_false (h : w.Within v) (hv : v.Throughout WellNested)
    (hcontainer : v.isContainer = false) : w.isContainer = false := by
  induction h with
  | refl => exact hcontainer
  | part hpart _ ih =>
    have hadmits := hv.self.sorts _ hpart
    exact ih (hv.part hpart) (isContainer_of_admits hadmits (ne_item_of_mem hcontainer hpart))

end

end Value

end LoxForms
