import LoxForms.Proofs.Building.WellNested
/-!
# What the rules pass on

A rule puts the values of its children together and makes a node or two around them.
So what is carried from the parts of a node to the node is carried from the children to
what the rule makes (`Carries.ofRule`); above all, what holds throughout the children
holds throughout what the rule makes, as long as it holds of the nodes that are new
(`Passes.ofRule`). Of these, only the ones with branches depend on what the children are:
an `if`, and the loop that a `while` or a `for` stands for, whose body is the last child
or a block made for the increment.
-/

namespace LoxForms

open Building Value

namespace Value

/-- Whether a value is a node with branches or with methods. -/
def isBranching : Value → Bool
  | ifStatement .. | whileStatement .. | classDeclaration .. => true
  | _ => false

/-- Whether a value is the name of a variable, by itself or assigned to. -/
def isNaming : Value → Bool
  | variableName _ | assign .. => true
  | _ => false

/-- A property that a node has if its parts have it, unless it has branches or names a
variable; and that the parts of a node have if it does, but for a superclass. -/
structure Carries (S : Value → Prop) : Prop where
  part : ∀ {v u : Value} {r : Role}, S v → (r, u) ∈ v.subvalues → r ≠ .base → S u
  node : ∀ {v : Value}, v.isToken = false → v.isBranching = false → v.isNaming = false →
    (∀ part ∈ v.subvalues, S part.2) → S v

section

variable {S : Value → Prop} {r : Role} {v left : Value} {us items : List Value}

/-! ## Parts of a node -/

theorem parts_one {a : Role × Value} (ha : S a.2) : ∀ part ∈ [a], S part.2 :=
  List.forall_mem_singleton.mpr ha

theorem parts_two {a b : Role × Value} (ha : S a.2) (hb : S b.2) : ∀ part ∈ [a, b], S part.2 :=
  List.forall_mem_cons.mpr ⟨ha, parts_one hb⟩

theorem parts_three {a b c : Role × Value} (ha : S a.2) (hb : S b.2) (hc : S c.2) :
    ∀ part ∈ [a, b, c], S part.2 :=
  List.forall_mem_cons.mpr ⟨ha, parts_two hb hc⟩

theorem parts_each (h : ∀ u ∈ items, S u) : ∀ part ∈ each r (list items), S part.2 :=
  List.forall_mem_map.mpr h

/-! ## Chains of operators -/

theorem carried_foldRest {join : Value → Value → Value → Value}
    (hjoin : ∀ {l o r : Value}, S l → S o → S r → S (join l o r))
    (hleft : S left) (hus : ∀ u ∈ us, S u) (hv : foldRest join left us = .ok v) : S v := by
  induction left, us using foldRest.induct join with
  | case1 left =>
    obtain rfl := Except.ok.inj hv
    exact hleft
  | case2 left operator =>
    obtain ⟨_, -, hv⟩ := bind_eq_ok.mp hv
    cases hv
  | case3 left operator right rest ih =>
    obtain ⟨-, -, hv⟩ := foldRest_eq_ok.mp hv
    rw [List.forall_mem_cons, List.forall_mem_cons] at hus
    exact ih _ _ (hjoin hleft hus.1 hus.2.1) hus.2.2 hv

theorem carried_fold {join : Value → Value → Value → Value}
    (hjoin : ∀ {l o r : Value}, S l → S o → S r → S (join l o r))
    (hus : ∀ u ∈ us, S u) (hv : fold join us = .ok v) : S v := by
  cases us with
  | nil => exact nomatch hv
  | cons first rest =>
    rw [List.forall_mem_cons] at hus
    exact carried_foldRest hjoin hus.1 hus.2 (fold_eq_ok.mp hv).2

end

namespace Carries

variable {S : Value → Prop} {r : Rule} {v : Value} {us items : List Value}

theorem ofList (h : Carries S) (hitems : ∀ u ∈ items, S u) : S (list items) :=
  h.node rfl rfl rfl (List.forall_mem_map.mpr hitems)

theorem listed (h : Carries S) (hv : S v) (hlisted : Listed v items) : ∀ u ∈ items, S u := by
  rcases hlisted with ⟨-, rfl⟩ | rfl
  · exact List.forall_mem_nil _
  · exact fun u hu => h.part (r := .item) hv (List.mem_map.mpr ⟨u, hu, rfl⟩) (by decide)

/-- Plain data have no parts. -/
theorem plain (h : Carries S) (hv : v.isPlain) : S v := by
  cases v <;> first | exact h.node rfl rfl rfl (List.forall_mem_nil _) | exact nomatch hv

theorem nil (h : Carries S) : S .nil := h.plain rfl

theorem literal (h : Carries S) (hv : S v) : S (.literal v) :=
  h.node rfl rfl rfl (parts_one hv)

/-! ## Loops -/

/-- **The loop that a `for` stands for**, from what is known of its four parts. -/
theorem forLoop (h : Carries S) {initializer condition increment body : Value}
    (hinitializer : S initializer) (hcondition : S condition) (hincrement : S increment)
    (hbody : S body)
    (hloop : ∀ c b, S c → S b → (b = body ∨ ∃ statements, b = block statements) →
      S (whileStatement c b)) :
    S (Building.forLoop initializer condition increment body) := by
  have hwhile : ∀ b : Value, S b → (b = body ∨ ∃ statements, b = block statements) →
      S (Building.forLoop .nil condition .nil b) := by
    intro b hb hsort
    by_cases hnil : condition = .nil
    · subst hnil
      have htrue : S (.literal (bool true)) := h.literal (h.plain rfl)
      exact hloop _ b htrue hb hsort
    · rw [forLoop_of_condition hnil]
      exact hloop _ b hcondition hb hsort
  have hrest : S (Building.forLoop .nil condition increment body) := by
    by_cases hnil : increment = .nil
    · subst hnil
      exact hwhile body hbody (.inl rfl)
    · rw [forLoop_of_increment hnil]
      have hstep : S (expressionStatement increment) := h.node rfl rfl rfl (parts_one hincrement)
      have hitems : ∀ u ∈ [body, expressionStatement increment], S u := by
        simpa using ⟨hbody, hstep⟩
      exact hwhile _ (h.node rfl rfl rfl (parts_each hitems)) (.inr ⟨_, rfl⟩)
  by_cases hnil : initializer = .nil
  · subst hnil
    exact hrest
  · rw [forLoop_of_initializer hnil]
    have hitems : ∀ u ∈ [initializer, Building.forLoop .nil condition increment body], S u := by
      simpa using ⟨hinitializer, hrest⟩
    exact h.node rfl rfl rfl (parts_each hitems)

/-! ## Rule by rule -/

/-- An assignment to a property, or to a variable. -/
theorem assign (h : Carries S) {target value : Value} (htarget : S target) (hvalue : S value)
    (hname : ∀ name, target = variableName name → S (.assign name value))
    (hv : Building.ofRule .assign [target, value] = .ok v) : S v := by
  obtain ⟨-, hmade⟩ := ofRule_assign.mp hv
  rcases hmade with ⟨name, rfl, rfl⟩ | ⟨owner, name, rfl, rfl⟩
  · exact hname name rfl
  · have howner : S owner := h.part htarget List.mem_cons_self (by decide)
    have hproperty : S name := h.part htarget (.tail _ List.mem_cons_self) (by decide)
    exact h.node rfl rfl rfl (parts_three howner hproperty hvalue)

theorem function (h : Carries S) {name params body : Value} (hname : S name) (hparams : S params)
    (hbody : S body) (hv : Building.ofRule .function [name, params, body] = .ok v) : S v := by
  obtain ⟨-, statements, rfl, items, hlisted, rfl⟩ := ofRule_function.mp hv
  refine h.node rfl rfl rfl ?_
  rw [subvalues, List.forall_mem_cons, List.forall_mem_append]
  refine ⟨hname, parts_each (h.listed hparams hlisted), fun part hpart => ?_⟩
  have hrole : part.1 ≠ .base := by
    rw [role_of_mem_each hpart]
    decide
  exact h.part hbody hpart hrole

/-- **What is carried from the children to a node is carried to what a rule makes**, if it
is carried to a variable, to an assignment to one, to an `if` with these children and to a
loop with the last one as its body. A class and its superclass are left out. -/
theorem ofRule (h : Carries S) (hus : ∀ u ∈ us, S u) (hclass : r ≠ .classDecl)
    (hbase : r ≠ .superclass)
    (hvariable : ∀ name, r = .variableName → us = [name] → S (variableName name))
    (hassign : ∀ name value, r = .assign → us = [variableName name, value] →
      S (.assign name value))
    (hif : ∀ c t e, r = .ifStmt → us = [c, t, e] → S (ifStatement c t e))
    (hloop : ∀ c b body, r = .whileStmt ∨ r = .forStmt → us.getLast? = some body → S c → S b →
      (b = body ∨ ∃ statements, b = block statements) → S (whileStatement c b))
    (hv : Building.ofRule r us = .ok v) : S v := by
  have hlogical : ∀ {l o r : Value}, S l → S o → S r → S (logical l o r) :=
    fun hl ho hr => h.node rfl rfl rfl (parts_three hl ho hr)
  have hbinary : ∀ {l o r : Value}, S l → S o → S r → S (binary l o r) :=
    fun hl ho hr => h.node rfl rfl rfl (parts_three hl ho hr)
  fun_cases Building.ofRule r us
  -- the program and its declarations
  · obtain ⟨-, rfl⟩ := ofRule_start.mp hv
    exact h.ofList hus
  · exact absurd rfl hclass
  · exact absurd rfl hbase
  · exact absurd rfl hbase
  · rename_i name params body
    exact h.function (hus name (by simp)) (hus params (by simp)) (hus body (by simp)) hv
  · obtain ⟨-, -, rfl⟩ := ofRule_parameters.mp hv
    exact h.ofList hus
  · rename_i name e
    obtain ⟨-, -, rfl⟩ := ofRule_varDecl.mp hv
    exact h.node rfl rfl rfl (parts_two (hus name (by simp)) (hus e (by simp)))
  -- statements
  · rename_i e
    obtain ⟨-, rfl⟩ := ofRule_exprStmt.mp hv
    exact h.node rfl rfl rfl (parts_one (hus e (by simp)))
  · rename_i e
    obtain ⟨-, rfl⟩ := ofRule_printStmt.mp hv
    exact h.node rfl rfl rfl (parts_one (hus e (by simp)))
  · rename_i e
    obtain ⟨-, rfl⟩ := ofRule_returnStmt.mp hv
    exact h.node rfl rfl rfl (parts_one (hus e (by simp)))
  · obtain ⟨-, rfl⟩ := ofRule_block.mp hv
    exact h.node rfl rfl rfl (parts_each hus)
  · rename_i c t e
    obtain ⟨-, -, -, rfl⟩ := ofRule_ifStmt.mp hv
    exact hif c t e rfl rfl
  · rename_i c b
    obtain ⟨-, -, rfl⟩ := ofRule_whileStmt.mp hv
    exact hloop c b b (.inl rfl) rfl (hus c (by simp)) (hus b (by simp)) (.inl rfl)
  · obtain rfl := Except.ok.inj hv
    exact h.nil
  · obtain ⟨-, rfl⟩ := ofRule_forInitializer.mp hv
    exact hus v (by simp)
  · rename_i initializer condition increment body
    obtain ⟨-, -, -, -, rfl⟩ := ofRule_forStmt.mp hv
    exact h.forLoop (hus initializer (by simp)) (hus condition (by simp))
      (hus increment (by simp)) (hus body (by simp)) fun c b => hloop c b body (.inr rfl) rfl
  -- expressions
  · rename_i target value
    exact h.assign (hus target (by simp)) (hus value (by simp))
      (fun name heq => hassign name value rfl (by rw [heq])) hv
  · exact carried_fold hlogical hus hv
  · exact carried_fold hlogical hus hv
  · exact carried_fold hbinary hus hv
  · exact carried_fold hbinary hus hv
  · exact carried_fold hbinary hus hv
  · exact carried_fold hbinary hus hv
  · rename_i operator right
    obtain ⟨-, -, rfl⟩ := ofRule_unary.mp hv
    exact h.node rfl rfl rfl (parts_two (hus operator (by simp)) (hus right (by simp)))
  · rename_i callee arguments
    obtain ⟨items, hitems, -, rfl⟩ := ofRule_call.mp hv
    refine h.node rfl rfl rfl (List.forall_mem_cons.mpr ⟨hus callee (by simp), ?_⟩)
    exact parts_each (h.listed (hus arguments (by simp)) hitems)
  · obtain ⟨-, -, rfl⟩ := ofRule_arguments.mp hv
    exact h.ofList hus
  · rename_i target name
    obtain ⟨-, -, rfl⟩ := ofRule_get.mp hv
    exact h.node rfl rfl rfl (parts_two (hus target (by simp)) (hus name (by simp)))
  -- what stands by itself
  · obtain ⟨_, _, _, _, rfl, rfl⟩ := ofRule_number.mp hv
    exact h.literal (h.part (r := .denoted) (hus _ List.mem_cons_self) List.mem_cons_self
      (by decide))
  · obtain ⟨_, _, _, _, rfl, rfl⟩ := ofRule_string.mp hv
    exact h.literal (h.part (r := .denoted) (hus _ List.mem_cons_self) List.mem_cons_self
      (by decide))
  · obtain rfl := Except.ok.inj hv
    exact h.literal (h.plain rfl)
  · obtain rfl := Except.ok.inj hv
    exact h.literal (h.plain rfl)
  · obtain rfl := Except.ok.inj hv
    exact h.literal h.nil
  · obtain rfl := Except.ok.inj hv
    exact h.node rfl rfl rfl (List.forall_mem_nil _)
  · obtain ⟨-, rfl⟩ := ofRule_variableName.mp hv
    exact hvariable _ rfl rfl
  · obtain ⟨-, rfl⟩ := ofRule_grouping.mp hv
    exact h.node rfl rfl rfl (parts_one (hus _ List.mem_cons_self))
  · obtain ⟨-, rfl⟩ := ofRule_superExpr.mp hv
    exact h.node rfl rfl rfl (parts_one (hus _ List.mem_cons_self))
  -- no rule takes any other number of children
  · rw [Building.ofRule] at hv <;> first | assumption | cases hv

end Carries

/-- A property that all nodes have but some of those with branches. -/
structure Passes (P : Value → Prop) : Prop where
  other : ∀ v : Value, v.isToken = false → v.isBranching = false → P v
  loop : ∀ condition statements, P (whileStatement condition (block statements))
  methods : ∀ name base methods, (∀ m ∈ methods, IsFunction m) →
    P (classDeclaration name base (list methods))

namespace Passes

variable {P : Value → Prop} {r : Rule} {v : Value} {us items : List Value}

/-- A node without branches, from what is known of its parts. -/
theorem node (h : Passes P) (htoken : v.isToken = false) (hbranching : v.isBranching = false)
    (hparts : ∀ part ∈ v.subvalues, part.2.Throughout P) : v.Throughout P :=
  throughout_iff.mpr ⟨h.other v htoken hbranching, hparts⟩

/-- **Such a property is carried** by what it holds throughout. -/
theorem carries (h : Passes P) : Carries (Throughout P) where
  part hv hpart _ := hv.part hpart
  node htoken hbranching _ := h.node htoken hbranching

theorem nil (h : Passes P) : Value.nil.Throughout P := h.carries.nil

/-- The token of a lexeme, which has no other parts than what it denotes. -/
theorem readLexeme (h : Passes P) {l : Lexeme} (hv : Program.readLexeme l = .ok v) (hP : P v) :
    v.Throughout P := by
  obtain ⟨-, denoted, hdenoted, rfl⟩ := Program.readLexeme_eq_ok.mp hv
  exact throughout_iff.mpr ⟨hP, parts_one (h.carries.plain (isPlain_of_denotes hdenoted))⟩

theorem superclass (h : Passes P) (hus : ∀ u ∈ us, u.Throughout P)
    (hv : Building.ofRule .superclass us = .ok v) : v.Throughout P := by
  rw [Building.ofRule] at hv
  split at hv
  · rename_i hlast
    simp only [bind_eq_ok, token_eq_ok, pure_eq_ok] at hv
    obtain ⟨name, ⟨-, rfl⟩, rfl⟩ := hv
    exact h.node rfl rfl (parts_one (hus _ (List.mem_of_getLast? hlast)))
  · cases hv

theorem classDecl (h : Passes P) (hus : ∀ u ∈ us, u.Throughout P)
    (hv : Building.ofRule .classDecl us = .ok v) : v.Throughout P := by
  match us with
  | [] | [_] => exact nomatch hv
  | name :: base :: methods =>
    obtain ⟨-, -, hmethods, rfl⟩ := ofRule_classDecl.mp hv
    rw [List.forall_mem_cons, List.forall_mem_cons] at hus
    refine throughout_iff.mpr ⟨h.methods _ _ _ hmethods, ?_⟩
    rw [subvalues, List.forall_mem_cons, List.forall_mem_cons]
    exact ⟨hus.1, hus.2.1, parts_each hus.2.2⟩

/-- **What holds throughout the children holds throughout what a rule makes**, if it
holds of an `if` with these children, and of a loop with the last one as its body. -/
theorem ofRule (h : Passes P) (hus : ∀ u ∈ us, u.Throughout P)
    (hif : ∀ c t e, r = .ifStmt → us = [c, t, e] → P (ifStatement c t e))
    (hloop : ∀ c b, r = .whileStmt ∨ r = .forStmt → us.getLast? = some b → P (whileStatement c b))
    (hv : Building.ofRule r us = .ok v) : v.Throughout P := by
  by_cases hclass : r = .classDecl
  · subst hclass
    exact h.classDecl hus hv
  by_cases hbase : r = .superclass
  · subst hbase
    exact h.superclass hus hv
  refine h.carries.ofRule hus hclass hbase ?_ ?_ ?_ ?_ hv
  · rintro name - rfl
    exact h.node rfl rfl (parts_one (hus name List.mem_cons_self))
  · rintro name value - rfl
    have hname := (hus _ List.mem_cons_self).part (r := .token) List.mem_cons_self
    exact h.node rfl rfl (parts_two hname (hus value (by simp)))
  · rintro c t e hr rfl
    exact throughout_iff.mpr ⟨hif c t e hr rfl,
      parts_three (hus c (by simp)) (hus t (by simp)) (hus e (by simp))⟩
  · rintro c b body hr hlast hc hb (rfl | ⟨statements, rfl⟩)
    · exact throughout_iff.mpr ⟨hloop c _ hr hlast, parts_two hc hb⟩
    · exact throughout_iff.mpr ⟨h.loop c statements, parts_two hc hb⟩

end Passes

end Value

end LoxForms
