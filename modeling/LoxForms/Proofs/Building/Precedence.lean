import LoxForms.Proofs.Building.WellNested
import LoxForms.Proofs.Form.Safety
/-!
# Precedence and associativity

How the expressions of a program nest: every node is well nested, in the parse of
any text.

Each rule asks of all its children alike how tightly they hold together at least
(`Rule.least`) and makes something that holds together so tightly (`Rule.level`);
and each phrase has values that do (`Nonterminal.least`). That the productions agree
with this is a check of the grammar, `Production.ranked`. The rest is to go through
the rules once, in `Fitting.ofRule`, of which the chains of operators are the one
case with an induction.
-/

namespace LoxForms

open Building Value

/-! ## How tightly things hold together -/

namespace Rule

/-- How tightly what a rule makes holds together at least. -/
def level : Rule → Nat
  | assign => 0
  | logicOr => 1
  | logicAnd => 2
  | equality => 3
  | comparison => 4
  | term => 5
  | factor => 6
  | unary => 7
  | _ => 8

/-- How tightly the children of a rule have to hold together. -/
def least : Rule → Nat
  | logicOr => 2
  | logicAnd => 3
  | equality => 4
  | comparison => 5
  | term => 6
  | factor | unary => 7
  | call | get => 8
  | _ => 0

/-- The kinds of token that a rule can have among its children. -/
def takes : Rule → TokenKind → Bool
  | logicOr => [.orWord].contains
  | logicAnd => [.andWord].contains
  | equality => [.bangEqual, .equalEqual].contains
  | comparison => [.greater, .greaterEqual, .less, .lessEqual].contains
  | term => [.minus, .plus].contains
  | factor => [.slash, .star].contains
  | unary => TokenKind.unaryOperators.contains
  | _ => fun _ => true

/-- The role of the items of a list among the children of a rule. -/
def listed? : Rule → Option Role
  | function => some .token
  | call => some .argument
  | _ => none

/-- The role of the items of the list that a rule makes. -/
def makes? : Rule → Option Role
  | start => some .statement
  | parameters => some .token
  | arguments => some .argument
  | _ => none

end Rule

namespace Nonterminal

/-- How tightly the values of a phrase hold together at least. -/
def least : Nonterminal → Nat
  | expression | assignment | moreArguments => 0
  | logicOr => 1
  | logicAnd | orTail => 2
  | equality | andTail => 3
  | comparison | equalityTail => 4
  | term | comparisonTail => 5
  | factor | termTail => 6
  | unary | factorTail => 7
  | _ => 8

/-- The kinds of token among the values of a phrase. -/
def tokens : Nonterminal → List TokenKind
  | moreParameters => [.identifier]
  | orTail => [.orWord]
  | andTail => [.andWord]
  | equalityTail => [.bangEqual, .equalEqual]
  | comparisonTail => [.greater, .greaterEqual, .less, .lessEqual]
  | termTail => [.minus, .plus]
  | factorTail => [.slash, .star]
  | _ => []

/-- The role of the items of a phrase that is a list. -/
def listed? : Nonterminal → Option Role
  | program => some .statement
  | parameters => some .token
  | arguments => some .argument
  | _ => none

end Nonterminal

/-- A value that is well nested throughout, holds together so tightly at least, is no
token but of certain kinds, and no list but of values for a certain role. -/
structure Fitting (least : Nat) (takes : TokenKind → Bool) (listed? : Option Role) (v : Value) :
    Prop where
  nested : v.Throughout WellNested
  tight : least ≤ v.tightness
  taken : ∀ k, v.tokenKind? = some k → takes k
  items : ∀ items, v = list items → ∃ role, listed? = some role ∧ ∀ u ∈ items, role.Admits u

namespace Fitting

variable {least m : Nat} {takes taken : TokenKind → Bool} {listed? : Option Role}
variable {ks : List TokenKind} {items us : List Value} {v l o r left : Value}

/-! ## What the rules make -/

/-- A node, from what is known of its parts. -/
theorem of_subvalues (hoperands : v.HoldsOperands) (hparts : ∀ part ∈ v.subvalues, Placed part)
    (htight : least ≤ v.tightness) (hnode : v.isNode) : Fitting least takes listed? v := by
  refine ⟨throughout_wellNested.mpr ⟨hoperands, hparts⟩, htight, fun k hk => ?_,
    fun items hlist => ?_⟩
  · cases v <;> first | exact absurd hnode Bool.false_ne_true | exact nomatch hk
  · subst hlist
    exact absurd hnode Bool.false_ne_true

/-- What is left out fits everywhere. -/
theorem of_nil : Fitting 8 takes listed? .nil :=
  ⟨wellNested_nil, Nat.le_refl 8, nofun, nofun⟩

/-- A statement, which holds together as tightly as anything. -/
theorem of_statement (h : Placed (.statement, v)) : Fitting 8 takes listed? v := by
  have hv : v.isStatement := h.1
  have hnode : v.isNode := by
    cases v <;> first | rfl | exact absurd hv Bool.false_ne_true
  have htight : 8 ≤ v.tightness := by
    cases v <;> first | exact Nat.le_refl 8 | exact absurd hv Bool.false_ne_true
  obtain ⟨hoperands, hparts⟩ := throughout_wellNested.mp h.2
  exact of_subvalues hoperands hparts htight hnode

theorem of_list {role : Role} (h : ∀ u ∈ items, u.Throughout WellNested)
    (hitems : ∀ u ∈ items, role.Admits u) : Fitting 8 takes (some role) (list items) := by
  refine ⟨wellNested_list.mpr h, Nat.le_refl 8, nofun, fun vs hvs => ⟨role, rfl, ?_⟩⟩
  obtain rfl := Value.list.inj hvs
  exact hitems

theorem operand (h : Fitting least takes listed? v) (hv : v.isExpression) : Operand least v :=
  ⟨⟨hv, h.tight⟩, h.nested⟩

/-- The items of a child that can be a list, or be left out. -/
theorem admits_of_listed {role : Role} (h : Fitting least takes (some role) v)
    (hv : Listed v items) : ∀ u ∈ items, role.Admits u := by
  rcases hv with ⟨-, rfl⟩ | rfl
  · exact List.forall_mem_nil _
  · obtain ⟨_, hrole, hitems⟩ := h.items items rfl
    rwa [Option.some.inj hrole]

/-! ### Operators -/

theorem isKindIn (h : Fitting least ks.contains listed? o) (ho : o.isToken) : IsKindIn ks o := by
  obtain ⟨k, text, denoted, line, rfl⟩ := exists_token_of_isToken ho
  exact ⟨k, List.contains_iff_mem.mp (h.taken k rfl), rfl⟩

/-- **A chain nests to the left**, whatever its length is. -/
theorem operand_foldRest {join : Value → Value → Value → Value} (hjoin : Joins join ks m)
    (hleft : Operand m left) (hus : ∀ u ∈ us, Fitting (m + 1) ks.contains listed? u)
    (h : foldRest join left us = .ok v) : Operand m v := by
  induction left, us using foldRest.induct join with
  | case1 left =>
    obtain rfl := Except.ok.inj h
    exact hleft
  | case2 left operator =>
    obtain ⟨_, -, h⟩ := bind_eq_ok.mp h
    cases h
  | case3 left operator right rest ih =>
    obtain ⟨ho, hr, h⟩ := foldRest_eq_ok.mp h
    rw [List.forall_mem_cons, List.forall_mem_cons] at hus
    have hnext := hjoin left operator right (hus.1.isKindIn ho) ⟨ho, hus.1.nested⟩ hleft
      (hus.2.1.operand hr)
    exact ih _ _ hnext hus.2.2 h

theorem of_operand (h : Operand m v) : Fitting m takes listed? v := by
  have hv : v.isExpression := h.1.1
  refine ⟨h.2, h.1.2, fun k hk => ?_, fun items hlist => ?_⟩
  · cases v <;> first | exact absurd hv Bool.false_ne_true | exact nomatch hk
  · subst hlist
    exact absurd hv Bool.false_ne_true

theorem of_fold {join : Value → Value → Value → Value} (hjoin : Joins join ks m)
    (hus : ∀ u ∈ us, Fitting (m + 1) ks.contains listed? u) (h : fold join us = .ok v) :
    Fitting m takes none v := by
  cases us with
  | nil => exact nomatch h
  | cons first rest =>
    obtain ⟨hfirst, h⟩ := fold_eq_ok.mp h
    rw [List.forall_mem_cons] at hus
    obtain ⟨⟨hexpression, htight⟩, hnested⟩ := hus.1.operand hfirst
    exact of_operand (operand_foldRest hjoin
      ⟨⟨hexpression, Nat.le_of_succ_le htight⟩, hnested⟩ hus.2 h)

theorem of_unary (ho : o.isToken)
    (hfit : Fitting least TokenKind.unaryOperators.contains listed? o) (hr : Operand 7 r) :
    Fitting 7 takes none (unary o r) :=
  of_subvalues ⟨hfit.isKindIn ho, hr.1⟩ (placed_two ⟨ho, hfit.nested⟩ (hr.placed (by decide)))
    (Nat.le_refl 7) rfl

/-! ### Assignments, calls and properties -/

/-- What is assigned to becomes part of the assignment, piece by piece. -/
theorem of_assign {target value : Value} (htarget : target.Throughout WellNested)
    (hvalue : value.Throughout WellNested) (h : Building.ofRule .assign [target, value] = .ok v) :
    Fitting 0 takes none v := by
  obtain ⟨he, htarget'⟩ := ofRule_assign.mp h
  have hassigned : Placed (.assigned, value) := ⟨he, hvalue⟩
  obtain ⟨howner, hparts⟩ := throughout_wellNested.mp htarget
  rcases htarget' with ⟨name, rfl, rfl⟩ | ⟨owner, name, rfl, rfl⟩
  · exact of_subvalues trivial (placed_two (hparts _ List.mem_cons_self) hassigned)
      (Nat.zero_le _) rfl
  · rw [subvalues, List.forall_mem_cons, List.forall_mem_singleton] at hparts
    exact of_subvalues howner (placed_three hparts.1 hparts.2 hassigned) (Nat.zero_le _) rfl

theorem of_call (hcallee : Operand 8 l) (h : ∀ u ∈ items, Placed (.argument, u)) :
    Fitting 8 takes none (call l (list items)) := by
  refine of_subvalues hcallee.1 ?_ (Nat.le_refl 8) rfl
  rw [subvalues, List.forall_mem_cons, each, List.forall_mem_map]
  exact ⟨hcallee.placed (by decide), h⟩

theorem of_get (howner : Operand 8 l) (hname : Placed (.token, o)) :
    Fitting 8 takes none (get l o) :=
  of_subvalues howner.1 (placed_two (howner.placed (by decide)) hname) (Nat.le_refl 8) rfl

/-! ### Declarations -/

theorem of_classDecl {name base : Value} {methods : List Value}
    (h : ∀ u ∈ name :: base :: methods, u.Throughout WellNested)
    (hv : Building.ofRule .classDecl (name :: base :: methods) = .ok v) :
    Fitting 8 takes none v := by
  obtain ⟨hname, hbase, hmethods, rfl⟩ := ofRule_classDecl.mp hv
  rw [List.forall_mem_cons, List.forall_mem_cons] at h
  refine of_subvalues trivial ?_ (Nat.le_refl 8) rfl
  rw [subvalues, List.forall_mem_cons, List.forall_mem_cons]
  exact ⟨⟨hname, h.1⟩, ⟨hbase, h.2.1⟩, placed_each hmethods h.2.2⟩

theorem of_function {name params body : Value} (hname : name.Throughout WellNested)
    (hparams : Fitting least taken (some .token) params) (hbody : body.Throughout WellNested)
    (hv : Building.ofRule .function [name, params, body] = .ok v) : Fitting 8 takes none v := by
  obtain ⟨ht, statements, rfl, items, hlisted, rfl⟩ := ofRule_function.mp hv
  refine of_subvalues trivial ?_ (Nat.le_refl 8) rfl
  rw [subvalues, List.forall_mem_cons, List.forall_mem_append]
  exact ⟨⟨ht, hname⟩,
    placed_each (hparams.admits_of_listed hlisted) (throughout_listed hparams.nested hlisted),
    (throughout_wellNested.mp hbody).2⟩

/-! ### Rule by rule -/

/-- **What a rule makes of fitting children fits.** -/
theorem ofRule {r : Rule} {us : List Value}
    (hus : ∀ u ∈ us, Fitting r.least r.takes r.listed? u) (h : ofRule r us = .ok v) :
    Fitting r.level takes r.makes? v := by
  have hnested := fun u hu => (hus u hu).nested
  fun_cases Building.ofRule r us
  -- the program and its declarations
  · obtain ⟨hs, rfl⟩ := ofRule_start.mp h
    exact of_list hnested hs
  · exact of_classDecl hnested h
  · rename_i hlast
    simp only [Building.ofRule, hlast, bind_eq_ok, token_eq_ok, pure_eq_ok] at h
    obtain ⟨name, ⟨hname, rfl⟩, rfl⟩ := h
    exact of_subvalues trivial (placed_one ⟨hname, hnested _ (List.mem_of_getLast? hlast)⟩)
      (Nat.le_refl 8) rfl
  · rename_i hlast
    simp only [Building.ofRule, hlast] at h
    cases h
  · rename_i name params body
    exact of_function (hnested name (by simp)) (hus params (by simp)) (hnested body (by simp)) h
  · obtain ⟨-, htokens, rfl⟩ := ofRule_parameters.mp h
    exact of_list hnested htokens
  · rename_i name e
    obtain ⟨hname, he, rfl⟩ := ofRule_varDecl.mp h
    exact of_subvalues trivial (placed_two ⟨hname, hnested name (by simp)⟩
      ⟨he, hnested e (by simp)⟩) (Nat.le_refl 8) rfl
  -- statements
  · rename_i e
    obtain ⟨he, rfl⟩ := ofRule_exprStmt.mp h
    exact of_subvalues trivial (placed_one ⟨he, hnested e (by simp)⟩) (Nat.le_refl 8) rfl
  · rename_i e
    obtain ⟨he, rfl⟩ := ofRule_printStmt.mp h
    exact of_subvalues trivial (placed_one ⟨he, hnested e (by simp)⟩) (Nat.le_refl 8) rfl
  · rename_i e
    obtain ⟨he, rfl⟩ := ofRule_returnStmt.mp h
    exact of_subvalues trivial (placed_one ⟨he, hnested e (by simp)⟩) (Nat.le_refl 8) rfl
  · obtain ⟨hs, rfl⟩ := ofRule_block.mp h
    exact of_subvalues trivial (placed_each hs hnested) (Nat.le_refl 8) rfl
  · rename_i condition thenBranch elseBranch
    obtain ⟨hcondition, hthen, helse, rfl⟩ := ofRule_ifStmt.mp h
    exact of_subvalues trivial (placed_three ⟨hcondition, hnested condition (by simp)⟩
      ⟨hthen, hnested thenBranch (by simp)⟩ ⟨helse, hnested elseBranch (by simp)⟩)
      (Nat.le_refl 8) rfl
  · rename_i condition body
    obtain ⟨hcondition, hbody, rfl⟩ := ofRule_whileStmt.mp h
    exact of_statement ⟨rfl, wellNested_while ⟨hcondition, hnested condition (by simp)⟩
      ⟨hbody, hnested body (by simp)⟩⟩
  · obtain rfl := Except.ok.inj h
    exact of_nil
  · obtain ⟨hs, rfl⟩ := ofRule_forInitializer.mp h
    exact of_statement ⟨hs, hnested v (by simp)⟩
  · rename_i initializer condition increment body
    obtain ⟨hbody, hincrement, hcondition, hinitializer, rfl⟩ := ofRule_forStmt.mp h
    exact of_statement (wellNested_forLoop ⟨hinitializer, hnested initializer (by simp)⟩
      ⟨hcondition, hnested condition (by simp)⟩ ⟨hincrement, hnested increment (by simp)⟩
      ⟨hbody, hnested body (by simp)⟩)
  -- operators, of which the chains nest to the left
  · rename_i target value
    exact of_assign (hnested target (by simp)) (hnested value (by simp)) h
  · exact of_fold (joins_logical (by decide) (by decide)) hus h
  · exact of_fold (joins_logical (by decide) (by decide)) hus h
  · exact of_fold (joins_binary (by decide) (by decide)) hus h
  · exact of_fold (joins_binary (by decide) (by decide)) hus h
  · exact of_fold (joins_binary (by decide) (by decide)) hus h
  · exact of_fold (joins_binary (by decide) (by decide)) hus h
  · rename_i operator right
    obtain ⟨ho, hr, rfl⟩ := ofRule_unary.mp h
    exact of_unary ho (hus operator (by simp)) ((hus right (by simp)).operand hr)
  -- what is called, and what has a property
  · rename_i callee arguments
    obtain ⟨items, hitems, hcallee, rfl⟩ := ofRule_call.mp h
    have hsorts := (hus arguments (by simp)).admits_of_listed hitems
    have hnested' := throughout_listed (hnested arguments (by simp)) hitems
    exact of_call ((hus callee (by simp)).operand hcallee) fun u hu => ⟨hsorts u hu, hnested' u hu⟩
  · obtain ⟨-, he, rfl⟩ := ofRule_arguments.mp h
    exact of_list hnested he
  · rename_i target name
    obtain ⟨hname, howner, rfl⟩ := ofRule_get.mp h
    exact of_get ((hus target (by simp)).operand howner) ⟨hname, hnested name (by simp)⟩
  -- what stands by itself
  · obtain ⟨_, _, _, _, rfl, rfl⟩ := ofRule_number.mp h
    exact of_subvalues trivial (throughout_wellNested.mp (hnested _ List.mem_cons_self)).2
      (Nat.le_refl 8) rfl
  · obtain ⟨_, _, _, _, rfl, rfl⟩ := ofRule_string.mp h
    exact of_subvalues trivial (throughout_wellNested.mp (hnested _ List.mem_cons_self)).2
      (Nat.le_refl 8) rfl
  · obtain rfl := Except.ok.inj h
    exact of_operand ⟨⟨rfl, Nat.le_refl 8⟩, wellNested_literal rfl⟩
  · obtain rfl := Except.ok.inj h
    exact of_operand ⟨⟨rfl, Nat.le_refl 8⟩, wellNested_literal rfl⟩
  · obtain rfl := Except.ok.inj h
    exact of_operand ⟨⟨rfl, Nat.le_refl 8⟩, wellNested_literal rfl⟩
  · obtain rfl := Except.ok.inj h
    exact of_subvalues trivial (List.forall_mem_nil _) (Nat.le_refl 8) rfl
  · obtain ⟨hname, rfl⟩ := ofRule_variableName.mp h
    exact of_subvalues trivial (placed_one ⟨hname, hnested _ List.mem_cons_self⟩)
      (Nat.le_refl 8) rfl
  · obtain ⟨he, rfl⟩ := ofRule_grouping.mp h
    exact of_subvalues trivial (placed_one ⟨he, hnested _ List.mem_cons_self⟩) (Nat.le_refl 8) rfl
  · obtain ⟨hname, rfl⟩ := ofRule_superExpr.mp h
    exact of_subvalues trivial (placed_one ⟨hname, hnested _ List.mem_cons_self⟩)
      (Nat.le_refl 8) rfl
  -- no rule takes any other number of children
  · rw [Building.ofRule] at h <;> first | assumption | cases h

end Fitting

/-! ## What the phrases have -/

/-- Whether a slot gives a value, or several. -/
def Slot.gives : Slot → Bool
  | drop _ => false
  | keep _ | phrase _ | absent => true

/-- Whether what a slot gives is as it is asked to be. -/
def Slot.fits (least : Nat) (takes : TokenKind → Bool) (listed? : Option Role) : Slot → Bool
  | keep k => decide (least ≤ 8) && takes k
  | phrase m =>
    decide (least ≤ m.least) && m.tokens.all takes && (m.listed? == none || m.listed? == listed?)
  | absent => decide (least ≤ 8)
  | drop _ => true

namespace Production

/-- Whether the values that a production reads are as those of its phrase. -/
def ranksRow (p : Production) : Bool :=
  p.slots.all (Slot.fits p.phrase.least p.phrase.tokens.contains p.phrase.listed?)

/-- Whether they are as a node asks, and the node is as the values of the phrase. -/
def ranksNode (p : Production) : Label → Bool
  | .rule r =>
    p.slots.all (Slot.fits r.least r.takes r.listed?) &&
      (decide (p.phrase.least ≤ r.level) && (r.makes? == none || r.makes? == p.phrase.listed?))
  | .other _ => p.slots.all (Slot.fits 0 (fun _ => true) none) && decide (p.phrase.least ≤ 8)

/-- Whether what a production makes is as the values of its phrase are, if the values
of the phrases that it reads are so. Where several symbols give values, none of these
stands for itself. -/
def ranked (p : Production) : Bool :=
  match p.shape with
  | .splice => p.slots.any Slot.gives && p.ranksRow
  | .node l => p.ranksNode l
  | .nodeUnlessSingle l => p.ranksNode l && (decide (1 < p.slots.countP Slot.gives) || p.ranksRow)

end Production

theorem Grammar.ranked_of_mem {p : Production} (hp : p ∈ Grammar.productions) : p.ranked := by
  have all_ranked : ∀ p ∈ Grammar.productions.toList, p.ranked := by decide +kernel
  exact all_ranked p (Array.mem_toList_iff.mpr hp)

/-- The values of each phrase, of which there is one at least. -/
def ranks : Account Unit where
  keeps k v _ := v.Throughout WellNested ∧ v.tokenKind? = some k
  drops _ _ := True
  phrase n us _ := us ≠ [] ∧ ∀ u ∈ us, Fitting n.least n.tokens.contains n.listed? u

section

variable {least least' : Nat} {takes takes' : TokenKind → Bool} {listed? listed?' : Option Role}
variable {slots : List Slot} {us : List Value} {gs : List Unit} {v : Value} {p : Production}

theorem Fitting.mono (h : Fitting least takes listed? v) (hleast : least' ≤ least)
    (htakes : ∀ k, takes k → takes' k) (hlisted : listed? = none ∨ listed? = listed?') :
    Fitting least' takes' listed?' v := by
  refine ⟨h.nested, Nat.le_trans hleast h.tight, fun k hk => htakes k (h.taken k hk), ?_⟩
  intro items hitems
  obtain ⟨role, hrole, hadmits⟩ := h.items items hitems
  rcases hlisted with hnone | heq
  · exact absurd (hnone.symm.trans hrole) (by simp)
  · exact ⟨role, heq ▸ hrole, hadmits⟩

theorem Fitting.of_tokenKind? {k : TokenKind} (h : v.Throughout WellNested)
    (hv : v.tokenKind? = some k) (hleast : least ≤ 8) (hk : takes k) :
    Fitting least takes listed? v := by
  cases v with
  | token =>
    refine ⟨h, hleast, fun j hj => ?_, nofun⟩
    rwa [← Option.some.inj (hv.symm.trans hj)]
  | _ => exact nomatch hv

theorem fitting_of_row (h : slots.all (Slot.fits least takes listed?))
    (hrow : ranks.Row slots us gs) : ∀ u ∈ us, Fitting least takes listed? u := by
  induction slots generalizing us gs with
  | nil =>
    obtain ⟨rfl, -⟩ := hrow
    exact List.forall_mem_nil _
  | cons s slots ih =>
    rw [List.all_cons, Bool.and_eq_true] at h
    cases s with
    | keep k =>
      obtain ⟨v, _, us, _, rfl, -, ⟨hnested, hkind⟩, hrow⟩ := hrow
      obtain ⟨hleast, hk⟩ := Bool.and_eq_true_iff.mp h.1
      exact List.forall_mem_cons.mpr
        ⟨.of_tokenKind? hnested hkind (of_decide_eq_true hleast) hk, ih h.2 hrow⟩
    | drop k =>
      obtain ⟨_, _, -, -, hrow⟩ := hrow
      exact ih h.2 hrow
    | absent =>
      obtain ⟨us, rfl, hrow⟩ := hrow
      exact List.forall_mem_cons.mpr
        ⟨⟨wellNested_nil, of_decide_eq_true h.1, nofun, nofun⟩, ih h.2 hrow⟩
    | phrase m =>
      obtain ⟨us₁, us₂, _, _, rfl, -, ⟨-, hphrase⟩, hrow⟩ := hrow
      obtain ⟨hm, hlisted⟩ := Bool.and_eq_true_iff.mp h.1
      obtain ⟨hleast, htokens⟩ := Bool.and_eq_true_iff.mp hm
      rw [Bool.or_eq_true, beq_iff_eq, beq_iff_eq] at hlisted
      refine List.forall_mem_append.mpr ⟨fun u hu => ?_, ih h.2 hrow⟩
      refine (hphrase u hu).mono (of_decide_eq_true hleast) (fun k hk => ?_) hlisted
      exact List.all_eq_true.mp htokens k (List.contains_iff_mem.mp hk)

/-- A row has a value at least for each slot that gives one. -/
theorem countP_gives_le (hrow : ranks.Row slots us gs) : slots.countP Slot.gives ≤ us.length := by
  induction slots generalizing us gs with
  | nil => exact Nat.zero_le _
  | cons s slots ih =>
    cases s with
    | keep k =>
      obtain ⟨v, _, us, _, rfl, -, -, hrow⟩ := hrow
      rw [List.countP_cons_of_pos rfl, List.length_cons]
      exact Nat.succ_le_succ (ih hrow)
    | drop k =>
      obtain ⟨_, _, -, -, hrow⟩ := hrow
      rw [List.countP_cons_of_neg Bool.false_ne_true]
      exact ih hrow
    | absent =>
      obtain ⟨us, rfl, hrow⟩ := hrow
      rw [List.countP_cons_of_pos rfl, List.length_cons]
      exact Nat.succ_le_succ (ih hrow)
    | phrase m =>
      obtain ⟨us₁, us₂, _, _, rfl, -, ⟨hne, -⟩, hrow⟩ := hrow
      have hpos := List.length_pos_iff.mpr hne
      have hrest := ih hrow
      rw [List.countP_cons_of_pos rfl, List.length_append]
      omega

theorem fitting_of_ofNode {l : Label} (hranked : p.ranksNode l) (hrow : ranks.Row p.slots us gs)
    (hv : ofNode l us = .ok v) :
    Fitting p.phrase.least p.phrase.tokens.contains p.phrase.listed? v := by
  cases l with
  | rule r =>
    obtain ⟨hslots, hranked⟩ := Bool.and_eq_true_iff.mp hranked
    obtain ⟨hleast, hmakes⟩ := Bool.and_eq_true_iff.mp hranked
    rw [Bool.or_eq_true, beq_iff_eq, beq_iff_eq] at hmakes
    have hmade : Fitting r.level p.phrase.tokens.contains r.makes? v :=
      Fitting.ofRule (fitting_of_row hslots hrow) (ofNode_rule.mp hv)
    exact hmade.mono (of_decide_eq_true hleast) (fun _ => id) hmakes
  | other name =>
    obtain ⟨hslots, hleast⟩ := Bool.and_eq_true_iff.mp hranked
    obtain rfl := Except.ok.inj hv
    refine ⟨throughout_wellNested.mpr ⟨trivial, ?_⟩, of_decide_eq_true hleast, nofun, nofun⟩
    rw [subvalues, List.forall_mem_map]
    exact fun u hu => ⟨trivial, (fitting_of_row hslots hrow u hu).nested⟩

/-- **Every production makes what its phrase is to have.** -/
theorem closed_ranks (hp : p ∈ Grammar.productions) : ranks.Closed p := by
  intro us vs gs hrow hvalues
  have hranked := Grammar.ranked_of_mem hp
  have hcount := countP_gives_le hrow
  unfold Production.ranked at hranked
  rcases Shape.values_eq_ok hvalues with ⟨l, v, hshape, hmade, rfl⟩ | ⟨rfl, hshape⟩
  · have hnode : p.ranksNode l := by
      rcases hshape with hshape | ⟨hshape, -⟩ <;> rw [hshape] at hranked
      · exact hranked
      · exact (Bool.and_eq_true_iff.mp hranked).1
    exact ⟨List.cons_ne_nil v [],
      List.forall_mem_singleton.mpr (fitting_of_ofNode hnode hrow hmade)⟩
  · rcases hshape with hshape | ⟨l, u, hshape, rfl⟩ <;> rw [hshape] at hranked
    · rw [Bool.and_eq_true, List.any_eq_true] at hranked
      have hpos := List.countP_pos_iff.mpr hranked.1
      exact ⟨List.ne_nil_of_length_pos (Nat.lt_of_lt_of_le hpos hcount),
        fitting_of_row hranked.2 hrow⟩
    · -- a single value is what the only symbol that gives one has
      rw [Bool.and_eq_true, Bool.or_eq_true, decide_eq_true_eq] at hranked
      exact ⟨List.cons_ne_nil u [],
        fitting_of_row (hranked.2.resolve_left (Nat.not_lt.mpr hcount)) hrow⟩

/-- The token of a lexeme holds plain data, or none. -/
theorem keeps_of_readLexeme {l : Lexeme} (h : Program.readLexeme l = .ok v) :
    v.Throughout WellNested ∧ v.tokenKind? = some l.kind := by
  obtain ⟨-, denoted, hdenoted, rfl⟩ := Program.readLexeme_eq_ok.mp h
  have hplain := isPlain_of_denotes hdenoted
  exact ⟨throughout_wellNested.mpr
    ⟨trivial, placed_one ⟨hplain, wellNested_of_isPlain hplain⟩⟩, rfl⟩

end

namespace Program

/-- **Precedence and associativity.** A program is a list of statements, and whatever
stands in one of them is well nested: each part is of the sort for its role; an operator
is one of its node's, its left operand holds together at least as tightly as it binds and
the right one more tightly, what is negated as tightly as a negation, and what is called
or has a property most tightly; and an assignment stands only where a whole expression
does. Nothing there is a container. -/
theorem wellNested {text : String} {statements : List Value}
    (h : ofText text = .ok statements) :
    (∀ s ∈ statements, s.isStatement) ∧
      ∀ s ∈ statements, ∀ v : Value, v.Within s → v.WellNested ∧ v.isContainer = false := by
  rcases ends text with ⟨e, -, herror, -⟩ | ⟨_, _, _, -, -, herror, -⟩ |
    ⟨parsed, statements', lines, hparsed, hbuild, hok, hstatements, -⟩
  · rw [herror] at h
    exact nomatch h
  · rw [herror] at h
    exact nomatch h
  obtain rfl := Except.ok.inj (hok.symm.trans h)
  refine ⟨hstatements, fun s hs => ?_⟩
  have hrow : ranks.Row [.phrase .program] [.list statements'] (parsed.lexemes.map fun _ => ()) :=
    (Parsed.reads hparsed).row (fun p hp => closed_ranks hp) (by decide)
      (fun _ _ _ hv => keeps_of_readLexeme hv) (fun _ _ _ => trivial)
      (Tree.buildAll_cons_eq_ok.mpr ⟨_, hbuild, [], rfl, rfl⟩)
  have hfitting : Fitting 8 (fun _ => true) (some .statement) (.list statements') :=
    fitting_of_row (by decide) hrow _ List.mem_cons_self
  have hnested := wellNested_list.mp hfitting.nested s hs
  have hadmits : Role.statement.Admits s := hstatements s hs
  have hcontainer : s.isContainer = false := isContainer_of_admits hadmits (by decide)
  exact fun v hv => ⟨hnested v hv, hv.isContainer_eq_false hnested hcontainer⟩

/-- Two differences nest to the left and two assignments to the right, in a loop. -/
theorem wellNested_loop : ∃ statements,
    ofText "for (;;) a.b = c = x - y - !d() * z;" = .ok statements ∧ statements.length = 1 ∧
    ∀ s ∈ statements, ∀ v : Value, v.Within s → v.WellNested ∧ v.isContainer = false := by
  have hmade : (ofText "for (;;) a.b = c = x - y - !d() * z;").toOption.map List.length =
      some 1 := by decide +kernel
  cases hprogram : ofText "for (;;) a.b = c = x - y - !d() * z;" with
  | error e =>
    rw [hprogram] at hmade
    exact nomatch hmade
  | ok statements =>
    rw [hprogram] at hmade
    exact ⟨statements, rfl, Option.some.inj hmade, (wellNested hprogram).2⟩

end Program

end LoxForms
