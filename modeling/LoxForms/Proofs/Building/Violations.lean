import LoxForms.Proofs.Form.Safety
/-!
# What is forbidden, and where

A text that has a tree stands for no program exactly if something in the tree is
forbidden: an assignment to what is neither a variable nor a property, or too many
arguments or parameters. All of that can be told from the tree alone
(`Tree.violation?`). The parts of a node are built before the node, from left to right;
so of several such nodes the first one in post-order is the one that is reported.

A rule looks at the values of its children and not at the trees. That a value is a
variable or a property exactly if its tree is one (`Tree.isTarget_of_build`) takes two
things that hold of the grammar's trees: no chain of operators has a single operand, and
what is assigned to is no superclass, which is a variable's name as well.
-/

namespace LoxForms

open Building Value

/-! ## Nodes in post-order -/

namespace Tree

variable {α : Type}

mutual

/-- The nodes of a tree in post-order: each of them after its children, and these from
left to right. -/
def postorder : Tree α → List (Tree α)
  | node l children => postorderOfAll children ++ [node l children]
  | leaf _ | absent => []

def postorderOfAll : List (Tree α) → List (Tree α)
  | [] => []
  | t :: ts => postorder t ++ postorderOfAll ts

end

/-- To stand somewhere in a tree. -/
inductive PartOf : Tree α → Tree α → Prop
  | refl (t : Tree α) : PartOf t t
  | child {t u : Tree α} {l : Label} {children : List (Tree α)} :
      u ∈ children → PartOf t u → PartOf t (node l children)

/-- What can be assigned to. -/
def isTarget : Tree α → Bool
  | node (.rule .variableName) _ | node (.rule .get) _ => true
  | _ => false

/-- What is forbidden about a node, if anything is. -/
def violation? : Tree α → Option Violation
  | node (.rule .assign) (target :: _) => if target.isTarget then none else some .invalidTarget
  | node (.rule .arguments) ts => if 255 < ts.length then some .tooManyArguments else none
  | node (.rule .parameters) ts => if 255 < ts.length then some .tooManyParameters else none
  | _ => none

end Tree

/-- The rule whose nodes can be forbidden so. -/
def Violation.rule : Violation → Rule
  | invalidTarget => .assign
  | tooManyArguments => .arguments
  | tooManyParameters => .parameters

/-! ## What can be assigned to -/

namespace Building

section

variable {r : Rule} {us : List Value} {v left : Value}

theorem isJoined_foldRest {join : Value → Value → Value → Value} (hus : us ≠ [])
    (h : foldRest join left us = .ok v) : ∃ l o r, v = join l o r := by
  induction left, us using foldRest.induct join with
  | case1 left => exact absurd rfl hus
  | case2 left operator =>
    obtain ⟨_, -, h⟩ := bind_eq_ok.mp h
    cases h
  | case3 left operator right rest ih =>
    obtain ⟨-, -, h⟩ := foldRest_eq_ok.mp h
    by_cases hrest : rest = []
    · subst hrest
      exact ⟨left, operator, right, (Except.ok.inj h).symm⟩
    · exact ih _ _ hrest h

/-- A chain of several operands is an operator's node. -/
theorem isJoined_fold {join : Value → Value → Value → Value} (hlen : us.length ≠ 1)
    (h : fold join us = .ok v) : ∃ l o r, v = join l o r := by
  cases us with
  | nil => exact nomatch h
  | cons first rest =>
    refine isJoined_foldRest ?_ (fold_eq_ok.mp h).2
    rintro rfl
    exact hlen rfl

end

end Building

namespace Value

/-- What can be assigned to. -/
def isTarget : Value → Bool
  | variableName _ | get .. => true
  | _ => false

theorem isTarget_of_isStatement {v : Value} (h : v.isStatement) : v.isTarget = false := by
  cases v <;> first | rfl | exact nomatch h

end Value

namespace Rule

/-- Whether a rule makes what can be assigned to. -/
def isTarget : Rule → Bool
  | variableName | get => true
  | _ => false

/-- Whether a rule makes a chain of operators. -/
def isChain : Rule → Bool
  | logicOr | logicAnd | equality | comparison | term | factor => true
  | _ => false

end Rule

namespace Building

theorem isTarget_ofRule {r : Rule} {us : List Value} {v : Value} (hr : r ≠ .superclass)
    (hchain : r.isChain → us.length ≠ 1) (h : ofRule r us = .ok v) : v.isTarget = r.isTarget := by
  have hlogical : r.isChain → fold .logical us = .ok v → v.isTarget = false := by
    intro hr h
    obtain ⟨_, _, _, rfl⟩ := isJoined_fold (hchain hr) h
    rfl
  have hbinary : r.isChain → fold .binary us = .ok v → v.isTarget = false := by
    intro hr h
    obtain ⟨_, _, _, rfl⟩ := isJoined_fold (hchain hr) h
    rfl
  have hloop : ∀ initializer condition increment body,
      (forLoop initializer condition increment body).isTarget = false := by
    intro initializer condition increment body
    cases initializer <;> rfl
  fun_cases ofRule r us
  -- the program and its declarations
  · obtain ⟨-, rfl⟩ := ofRule_start.mp h
    rfl
  · obtain ⟨-, -, -, rfl⟩ := ofRule_classDecl.mp h
    rfl
  · exact absurd rfl hr
  · exact absurd rfl hr
  · obtain ⟨-, _, -, _, -, rfl⟩ := ofRule_function.mp h
    rfl
  · obtain ⟨-, -, rfl⟩ := ofRule_parameters.mp h
    rfl
  · obtain ⟨-, -, rfl⟩ := ofRule_varDecl.mp h
    rfl
  -- statements
  · obtain ⟨-, rfl⟩ := ofRule_exprStmt.mp h
    rfl
  · obtain ⟨-, rfl⟩ := ofRule_printStmt.mp h
    rfl
  · obtain ⟨-, rfl⟩ := ofRule_returnStmt.mp h
    rfl
  · obtain ⟨-, rfl⟩ := ofRule_block.mp h
    rfl
  · obtain ⟨-, -, -, rfl⟩ := ofRule_ifStmt.mp h
    rfl
  · obtain ⟨-, -, rfl⟩ := ofRule_whileStmt.mp h
    rfl
  · obtain rfl := Except.ok.inj h
    rfl
  · obtain ⟨hs, rfl⟩ := ofRule_forInitializer.mp h
    exact isTarget_of_isStatement hs
  · obtain ⟨-, -, -, -, rfl⟩ := ofRule_forStmt.mp h
    exact hloop _ _ _ _
  -- expressions
  · obtain ⟨-, ⟨_, -, rfl⟩ | ⟨_, _, -, rfl⟩⟩ := ofRule_assign.mp h
    · rfl
    · rfl
  · exact hlogical rfl h
  · exact hlogical rfl h
  · exact hbinary rfl h
  · exact hbinary rfl h
  · exact hbinary rfl h
  · exact hbinary rfl h
  · obtain ⟨-, -, rfl⟩ := ofRule_unary.mp h
    rfl
  · obtain ⟨_, -, -, rfl⟩ := ofRule_call.mp h
    rfl
  · obtain ⟨-, -, rfl⟩ := ofRule_arguments.mp h
    rfl
  · obtain ⟨-, -, rfl⟩ := ofRule_get.mp h
    rfl
  -- what stands by itself
  · obtain ⟨_, _, _, _, -, rfl⟩ := ofRule_number.mp h
    rfl
  · obtain ⟨_, _, _, _, -, rfl⟩ := ofRule_string.mp h
    rfl
  · obtain rfl := Except.ok.inj h
    rfl
  · obtain rfl := Except.ok.inj h
    rfl
  · obtain rfl := Except.ok.inj h
    rfl
  · obtain rfl := Except.ok.inj h
    rfl
  · obtain ⟨-, rfl⟩ := ofRule_variableName.mp h
    rfl
  · obtain ⟨-, rfl⟩ := ofRule_grouping.mp h
    rfl
  · obtain ⟨-, rfl⟩ := ofRule_superExpr.mp h
    rfl
  -- no rule takes any other number of children
  · rw [ofRule] at h <;> first | assumption | cases h

end Building

/-! ## What a tree is built to -/

namespace Tree

variable {t : Tree Lexeme} {ts : List (Tree Lexeme)} {l : Label} {u : Value} {us : List Value}

/-- To be built to what the name of the root says: no superclass, which is a name as a
variable is, and no chain of a single operand, which is that operand. -/
def isExact : Tree Lexeme → Bool
  | node (.rule r) children => r != .superclass && (!r.isChain || children.length != 1)
  | _ => true

/-- **A target is built to a target**, and nothing else is. -/
theorem isTarget_of_build (ht : t.isExact) (h : t.build Program.readLexeme = .ok u) :
    u.isTarget = t.isTarget := by
  cases t with
  | leaf l =>
    obtain ⟨-, _, -, rfl⟩ := Program.readLexeme_eq_ok.mp h
    rfl
  | absent =>
    obtain rfl := Except.ok.inj h
    rfl
  | node l children =>
    obtain ⟨us, hus, hu⟩ := bind_eq_ok.mp h
    cases l with
    | other name =>
      obtain rfl := Except.ok.inj hu
      rfl
    | rule r =>
      simp only [isExact, Bool.and_eq_true, bne_iff_ne, Bool.or_eq_true, Bool.not_eq_true'] at ht
      have hchain : r.isChain → us.length ≠ 1 := by
        intro hr
        rw [length_of_buildAll hus]
        exact ht.2.resolve_left (by simp [hr])
      rw [isTarget_ofRule ht.1 hchain (ofNode_rule.mp hu)]
      cases r <;> rfl

/-- Not to be an assignment to something that is built to something else. -/
def isAssured : Tree Lexeme → Bool
  | node (.rule .assign) (target :: _) => target.isExact
  | _ => true

end Tree

/-- To come of building something in which this has been found first to be forbidden:
nothing, if it is built, and otherwise what it has been refused for. That building fails
in another way is left open. -/
structure Agrees {α : Type} (found : Option Violation) (x : Except BuildError α) : Prop where
  ok : ∀ a, x = .ok a → found = none
  refused : ∀ r v, x = .error (.refused r (.violation v)) → found = some v ∧ r = v.rule

namespace Agrees

variable {α β : Type} {found first next : Option Violation} {r : Rule} {us : List Value}

theorem of_ok (a : α) : Agrees none (.ok a) := ⟨fun _ _ => rfl, nofun⟩

/-- What is built first is refused first. -/
theorem bind {x : Except BuildError α} {f : α → Except BuildError β} (hx : Agrees first x)
    (hf : ∀ a, x = .ok a → Agrees next (f a)) : Agrees (first.or next) (x >>= f) := by
  constructor
  · intro b hb
    obtain ⟨a, ha, hb⟩ := bind_eq_ok.mp hb
    rw [hx.ok a ha, (hf a ha).ok b hb]
    rfl
  · intro r v h
    rcases bind_eq_error.mp h with h | ⟨a, ha, h⟩
    · obtain ⟨rfl, hr⟩ := hx.refused r v h
      exact ⟨rfl, hr⟩
    · rw [hx.ok a ha, Option.none_or]
      exact (hf a ha).refused r v h

theorem ofRule (hok : ∀ v, Building.ofRule r us = .ok v → found = none)
    (hviolation : ∀ v, Building.ofRule r us = .error (.violation v) → found = some v ∧ r = v.rule) :
    Agrees found (ofNode (.rule r) us) := by
  constructor
  · intro v hv
    exact hok v (ofNode_rule.mp hv)
  · intro r' v h
    rw [ofNode] at h
    cases hmade : Building.ofRule r us with
    | ok u =>
      rw [hmade] at h
      cases h
    | error e =>
      rw [hmade] at h
      obtain ⟨rfl, rfl⟩ := BuildError.refused.inj (Except.error.inj h)
      exact hviolation v hmade

/-- A list of so many children at most. -/
theorem limited {place : Value → Except Refusal Value} {v : Violation} {P : Value → Prop}
    (hrule : Building.ofRule r us = Building.limited v place us)
    (hplace : ∀ u w, place u = .ok w ↔ P u ∧ w = u)
    (hne : ∀ u w, place u ≠ .error (.violation w)) (hr : r = v.rule) :
    Agrees (if 255 < us.length then some v else none) (ofNode (.rule r) us) := by
  refine ofRule (fun u hu => ?_) fun w hw => ?_
  · rw [hrule, limited_eq_ok hplace] at hu
    exact if_neg (Nat.not_lt.mpr hu.1)
  · rw [hrule, Building.limited] at hw
    split at hw
    · rename_i hlong
      obtain rfl := Refusal.violation.inj (Except.error.inj hw)
      exact ⟨if_pos hlong, hr⟩
    · rcases bind_eq_error.mp hw with hw | ⟨_, -, hw⟩
      · exact absurd hw (mapM_ne fun u => hne u w)
      · exact absurd hw pure_ne_error

/-- An assignment to the value of a tree. -/
theorem assign {target value : Value} :
    Agrees (if target.isTarget then none else some .invalidTarget)
      (ofNode (.rule .assign) [target, value]) := by
  refine ofRule (fun v hv => ?_) fun w hw => ?_
  · obtain ⟨-, ⟨name, rfl, -⟩ | ⟨owner, name, rfl, -⟩⟩ := ofRule_assign.mp hv
    · rfl
    · rfl
  · rcases bind_eq_error.mp hw with hw | ⟨_, -, hw⟩
    · exact absurd hw expression_ne
    · unfold assignment at hw
      split at hw
      · exact nomatch hw
      · exact nomatch hw
      · rename_i hvariable hget
        obtain rfl := Refusal.violation.inj (Except.error.inj hw)
        refine ⟨if_neg ?_, rfl⟩
        cases target <;> simp_all [Value.isTarget]

end Agrees

namespace Tree

variable {ts : List (Tree Lexeme)} {l : Label} {us : List Value}

theorem agrees_leaf (l : Lexeme) : Agrees none (Program.readLexeme l) := by
  refine ⟨fun _ _ => rfl, fun r v h => ?_⟩
  unfold Program.readLexeme readToken at h
  split at h
  · exact nomatch h
  · split at h <;> exact nomatch h
  · exact nomatch h
  · exact nomatch h

theorem agrees_assign (hus : buildAll Program.readLexeme ts = .ok us)
    (hassured : (node (.rule .assign) ts).isAssured) :
    Agrees (node (.rule .assign) ts).violation? (ofNode (.rule .assign) us) := by
  by_cases hlen : us.length = 2
  · obtain ⟨target, value, rfl⟩ := List.length_eq_two.mp hlen
    cases ts with
    | nil => exact nomatch hus
    | cons t ts =>
      obtain ⟨u, hu, _, -, heq⟩ := buildAll_cons_eq_ok.mp hus
      obtain ⟨rfl, -⟩ := List.cons.inj heq
      rw [violation?, ← isTarget_of_build hassured hu]
      exact .assign
  · have hrule : ofRule .assign us = .error .miscounted := by
      match us, hlen with
      | [], _ | [_], _ | _ :: _ :: _ :: _, _ => rfl
    refine .ofRule (fun v hv => ?_) fun v hv => ?_
    · exact nomatch hrule.symm.trans hv
    · exact nomatch hrule.symm.trans hv

/-- **A node is forbidden exactly if its rule forbids what its children are built to.** -/
theorem agrees_ofNode (hus : buildAll Program.readLexeme ts = .ok us)
    (hassured : (node l ts).isAssured) : Agrees (node l ts).violation? (ofNode l us) := by
  have hlen := length_of_buildAll hus
  cases l with
  | other name => exact .of_ok _
  | rule r =>
    by_cases hassign : r = .assign
    · subst hassign
      exact agrees_assign hus hassured
    by_cases harguments : r = .arguments
    · subst harguments
      rw [violation?, ← hlen]
      exact .limited rfl (fun _ _ => expression_eq_ok) (fun _ _ => expression_ne) rfl
    by_cases hparameters : r = .parameters
    · subst hparameters
      rw [violation?, ← hlen]
      exact .limited rfl (fun _ _ => token_eq_ok) (fun _ _ => token_ne) rfl
    · have hnone : (node (.rule r) ts).violation? = none := by
        cases r <;> first | rfl | contradiction
      rw [hnone]
      refine .ofRule (fun _ _ => rfl) fun v hv => ?_
      rcases rule_of_violation hv with hr | hr | hr
      · exact absurd hr hassign
      · exact absurd hr harguments
      · exact absurd hr hparameters

mutual

theorem agrees_build : ∀ t : Tree Lexeme, (∀ n ∈ t.postorder, n.isAssured) →
    Agrees (t.postorder.findSome? violation?) (t.build Program.readLexeme)
  | leaf l, _ => agrees_leaf l
  | absent, _ => .of_ok _
  | node l ts, h => by
    rw [postorder, List.forall_mem_append, List.forall_mem_singleton] at h
    rw [postorder, List.findSome?_append, build]
    refine (agrees_buildAll ts h.1).bind fun us hus => ?_
    rw [List.findSome?_singleton]
    exact agrees_ofNode hus h.2

theorem agrees_buildAll : ∀ ts : List (Tree Lexeme), (∀ n ∈ postorderOfAll ts, n.isAssured) →
    Agrees ((postorderOfAll ts).findSome? violation?) (buildAll Program.readLexeme ts)
  | [], _ => .of_ok _
  | t :: ts, h => by
    rw [postorderOfAll, List.forall_mem_append] at h
    rw [postorderOfAll, List.findSome?_append, buildAll]
    refine (agrees_build t h.1).bind fun u _ => ?_
    rw [← Option.or_none (o := (postorderOfAll ts).findSome? violation?)]
    exact (agrees_buildAll ts h.2).bind fun _ _ => .of_ok _

end

end Tree

/-! ## Trees of the grammar -/

section

variable {after : TokenKind} {slots : List Slot} {w : List Lexeme} {ts : List (Tree Lexeme)}

namespace Production

/-- Whether what a production makes is built to what its root says, unless it is made
for a superclass. What a phrase hands over has to be so as well. -/
def exact (p : Production) : Bool :=
  p.phrase == .superclass ||
    match p.shape with
    | .node (.rule r) => r != .superclass && !r.isChain
    | .nodeUnlessSingle (.rule r) => r != .superclass && !p.slots.contains (.phrase .superclass)
    | .node (.other _) => true
    | .nodeUnlessSingle (.other _) | .splice => !p.slots.contains (.phrase .superclass)

/-- Whether only the value of an operand is assigned to. -/
def assured (p : Production) : Bool :=
  match p.shape with
  | .node (.rule .assign) | .nodeUnlessSingle (.rule .assign) =>
    !p.slots.contains (.phrase .superclass)
  | _ => true

end Production

theorem Grammar.exact_of_mem {p : Production} (hp : p ∈ productions) : p.exact ∧ p.assured := by
  have all_exact : ∀ p ∈ productions.toList, p.exact ∧ p.assured := by decide +kernel
  exact all_exact p (Array.mem_toList_iff.mpr hp)

theorem Tree.postorderOfAll_append (ts us : List (Tree Lexeme)) :
    postorderOfAll (ts ++ us) = postorderOfAll ts ++ postorderOfAll us := by
  induction ts with
  | nil => rfl
  | cons t ts ih => rw [List.cons_append, postorderOfAll, postorderOfAll, ih, List.append_assoc]

/-- A production adds a node to those that it has read, if it adds anything. -/
theorem Shape.postorder_apply (shape : Shape) (ts : List (Tree Lexeme)) :
    Tree.postorderOfAll (shape.apply ts) = Tree.postorderOfAll ts ∨
      ∃ l, (shape = node l ∨ shape = nodeUnlessSingle l) ∧
        Tree.postorderOfAll (shape.apply ts) = Tree.postorderOfAll ts ++ [Tree.node l ts] := by
  have hnode : ∀ l,
      Tree.postorderOfAll [.node l ts] = Tree.postorderOfAll ts ++ [Tree.node l ts] := by
    intro l
    rw [Tree.postorderOfAll, Tree.postorderOfAll, Tree.postorder, List.append_nil]
  cases shape with
  | node l => exact .inr ⟨l, .inl rfl, hnode l⟩
  | splice => exact .inl rfl
  | nodeUnlessSingle l =>
    by_cases hlen : ts.length = 1
    · obtain ⟨t, rfl⟩ := List.length_eq_one_iff.mp hlen
      exact .inl rfl
    · rw [apply_nodeUnlessSingle hlen]
      exact .inr ⟨l, .inr rfl, hnode l⟩

/-- What a production makes of trees. -/
theorem Production.isExact_apply {p : Production} (hp : p.exact) (hphrase : p.phrase ≠ .superclass)
    (hts : .phrase .superclass ∉ p.slots → ∀ t ∈ ts, t.isExact) :
    ∀ t ∈ p.shape.apply ts, t.isExact := by
  rw [Production.exact, Bool.or_eq_true, beq_iff_eq, or_iff_right hphrase] at hp
  cases hshape : p.shape with
  | node l =>
    rw [hshape] at hp
    refine List.forall_mem_singleton.mpr ?_
    cases l with
    | rule r =>
      simp only [Bool.and_eq_true] at hp
      simp [Tree.isExact, hp]
    | other name => rfl
  | splice =>
    rw [hshape] at hp
    exact hts (by simpa using hp)
  | nodeUnlessSingle l =>
    rw [hshape] at hp
    by_cases hlen : ts.length = 1
    · obtain ⟨t, rfl⟩ := List.length_eq_one_iff.mp hlen
      refine hts ?_
      cases l with
      | rule r => simpa using (Bool.and_eq_true_iff.mp hp).2
      | other name => simpa using hp
    · rw [Shape.apply_nodeUnlessSingle hlen]
      refine List.forall_mem_singleton.mpr ?_
      cases l with
      | rule r =>
        simp only [Bool.and_eq_true] at hp
        simp [Tree.isExact, hp, hlen]
      | other name => rfl

/-- **What is read for anything but a superclass is built to what its root says.** -/
theorem Reads.isExact (h : Reads after slots w ts) (hslots : .phrase .superclass ∉ slots) :
    ∀ t ∈ ts, t.isExact := by
  induction h with
  | done => exact List.forall_mem_nil _
  | keep _ _ ih =>
    exact List.forall_mem_cons.mpr ⟨rfl, ih (List.not_mem_of_not_mem_cons hslots)⟩
  | drop _ _ ih => exact ih (List.not_mem_of_not_mem_cons hslots)
  | absent _ _ ih =>
    exact List.forall_mem_cons.mpr ⟨rfl, ih (List.not_mem_of_not_mem_cons hslots)⟩
  | @phrase _ p _ _ _ us _ hp _ _ ihin ih =>
    have hphrase : p.phrase ≠ .superclass := by
      intro heq
      exact hslots (heq ▸ List.mem_cons_self)
    exact List.forall_mem_append.mpr
      ⟨Production.isExact_apply (Grammar.exact_of_mem hp).1 hphrase ihin,
        ih (List.not_mem_of_not_mem_cons hslots)⟩

/-- **Nothing that is read assigns to what is built to something else.** -/
theorem Reads.isAssured (h : Reads after slots w ts) :
    ∀ n ∈ Tree.postorderOfAll ts, n.isAssured := by
  induction h with
  | done => exact List.forall_mem_nil _
  | keep _ _ ih => exact ih
  | drop _ _ ih => exact ih
  | absent _ _ ih => exact ih
  | @phrase _ p _ _ _ us _ hp hin _ ihin ih =>
    rw [Tree.postorderOfAll_append]
    refine List.forall_mem_append.mpr ⟨?_, ih⟩
    rcases p.shape.postorder_apply us with hsame | ⟨l, hshape, hmore⟩
    · rw [hsame]
      exact ihin
    · rw [hmore, List.forall_mem_append, List.forall_mem_singleton]
      refine ⟨ihin, ?_⟩
      by_cases hl : l = .rule .assign
      · subst hl
        cases us with
        | nil => rfl
        | cons t us =>
          have hassured := (Grammar.exact_of_mem hp).2
          have hslots : .phrase .superclass ∉ p.slots := by
            rcases hshape with hshape | hshape <;>
              simpa [Production.assured, hshape] using hassured
          exact hin.isExact hslots t List.mem_cons_self
      · unfold Tree.isAssured
        split
        · exact absurd (Tree.node.inj ‹_›).1 hl
        · rfl

end

namespace Tree

variable {α : Type} {t u : Tree α} {ts : List (Tree α)}

theorem mem_postorderOfAll : t ∈ postorderOfAll ts ↔ ∃ u ∈ ts, t ∈ u.postorder := by
  induction ts with
  | nil => simp [postorderOfAll]
  | cons u ts ih => rw [postorderOfAll, List.mem_append, ih, List.exists_mem_cons_iff]

mutual

theorem partOf_of_mem_postorder : ∀ u : Tree α, t ∈ u.postorder → t.PartOf u
  | leaf _, h | absent, h => absurd h List.not_mem_nil
  | node l children, h => by
    rw [postorder, List.mem_append, List.mem_singleton] at h
    rcases h with h | rfl
    · obtain ⟨u, hu, hpart⟩ := partOf_of_mem_postorderOfAll children h
      exact .child hu hpart
    · exact .refl _

theorem partOf_of_mem_postorderOfAll : ∀ ts : List (Tree α), t ∈ postorderOfAll ts →
    ∃ u ∈ ts, t.PartOf u
  | [], h => absurd h List.not_mem_nil
  | u :: ts, h => by
    rw [postorderOfAll, List.mem_append] at h
    rcases h with h | h
    · exact ⟨u, List.mem_cons_self, partOf_of_mem_postorder u h⟩
    · obtain ⟨v, hv, hpart⟩ := partOf_of_mem_postorderOfAll ts h
      exact ⟨v, List.mem_cons_of_mem u hv, hpart⟩

end

theorem mem_postorder_of_partOf {l : Label} (h : (node l ts).PartOf u) :
    node l ts ∈ u.postorder := by
  generalize hn : node l ts = n at h
  induction h with
  | refl =>
    subst hn
    rw [postorder]
    exact List.mem_append_right _ List.mem_cons_self
  | child hmem _ ih =>
    rw [postorder]
    exact List.mem_append_left _ (mem_postorderOfAll.mpr ⟨_, hmem, ih⟩)

/-- **The first node that is forbidden is one that stands in the tree.** -/
theorem exists_violation_iff : (∃ v, u.postorder.findSome? violation? = some v) ↔
    ∃ t : Tree α, t.PartOf u ∧ t.violation? ≠ none := by
  constructor
  · rintro ⟨v, hv⟩
    obtain ⟨t, ht, hviolation⟩ := List.exists_of_findSome?_eq_some hv
    exact ⟨t, partOf_of_mem_postorder u ht, by simp [hviolation]⟩
  · rintro ⟨t, hpart, hviolation⟩
    have hmem : t ∈ u.postorder := by
      cases t with
      | node l ts => exact mem_postorder_of_partOf hpart
      | leaf | absent => exact absurd rfl hviolation
    rw [← Option.isSome_iff_exists, List.findSome?_isSome_iff]
    exact ⟨t, hmem, Option.isSome_iff_ne_none.mpr hviolation⟩

end Tree

namespace Program

/-- **Exactly when something is forbidden, and what.** If a text has a tree, then it
stands for no program exactly if something is forbidden about a node in it: an assignment
to neither a variable nor a property, more than 255 arguments or more than 255
parameters. Of several such nodes the first one in post-order is the one that is
reported, with its message. If a text has no tree, it is the syntax error that is reported. -/
theorem ofText_forbids (text : String) :
    (∀ e, Parsed.ofText text = .error e → ofText text = .error (.noTree e)) ∧
    ∀ parsed, Parsed.ofText text = .ok parsed →
      (∀ v, ofText text = .error (.noProgram (.refused v.rule (.violation v))) ↔
        parsed.tree.postorder.findSome? Tree.violation? = some v) ∧
      (∀ e, ofText text = .error (.noProgram e) →
        e.message? = (parsed.tree.postorder.findSome? Tree.violation?).map Violation.message) ∧
      ((∃ e, ofText text = .error e) ↔
        ∃ t : Tree Lexeme, t.PartOf parsed.tree ∧ t.violation? ≠ none) := by
  refine ⟨fun e he => by rw [ofText, he]; rfl, fun parsed hparsed => ?_⟩
  rw [← Tree.exists_violation_iff]
  have hassured : ∀ n ∈ parsed.tree.postorder, n.isAssured := by
    have hall := (Parsed.reads hparsed).isAssured
    rwa [Tree.postorderOfAll, Tree.postorderOfAll, List.append_nil] at hall
  have hagrees := Tree.agrees_build parsed.tree hassured
  rcases ends text with ⟨e, herror, -⟩ | ⟨parsed', r, v, hparsed', hbuild, herror, -⟩ |
    ⟨parsed', statements, _, hparsed', hbuild, hok, -⟩
  · cases herror.symm.trans hparsed
  · obtain rfl := Except.ok.inj (hparsed.symm.trans hparsed')
    obtain ⟨hfound, rfl⟩ := hagrees.refused r v hbuild
    rw [herror, hfound]
    refine ⟨fun v' => ⟨fun h => ?_, fun h => ?_⟩, fun e he => ?_, fun _ => ⟨v, rfl⟩,
      fun _ => ⟨_, rfl⟩⟩
    · obtain ⟨-, hv⟩ := BuildError.refused.inj (ProgramError.noProgram.inj (Except.error.inj h))
      rw [Refusal.violation.inj hv]
    · rw [Option.some.inj h]
    · obtain rfl := ProgramError.noProgram.inj (Except.error.inj he)
      rfl
  · obtain rfl := Except.ok.inj (hparsed.symm.trans hparsed')
    have hfound := hagrees.ok _ hbuild
    rw [hok, hfound]
    simp

/-- A property in parentheses is no target, while a property is one. Without the semicolon
at the end, neither is looked at. -/
theorem ofText_forbids_grouping :
    ofText "a.b = (c.d) = e;" = .error (.noProgram (.refused .assign (.violation .invalidTarget))) ∧
    ∃ e, ofText "a.b = (c.d) = e" = .error (.noTree e) := by
  have hfound : (Parsed.ofText "a.b = (c.d) = e;").toOption.map
      (fun parsed => parsed.tree.postorder.findSome? Tree.violation?) =
      some (some .invalidTarget) := by decide +kernel
  have hrejected : (Parsed.ofText "a.b = (c.d) = e").toOption.isNone := by decide +kernel
  constructor
  · cases hparsed : Parsed.ofText "a.b = (c.d) = e;" with
    | error e =>
      rw [hparsed] at hfound
      exact nomatch hfound
    | ok parsed =>
      rw [hparsed] at hfound
      exact (((ofText_forbids _).2 parsed hparsed).1 .invalidTarget).mpr (Option.some.inj hfound)
  · cases hparsed : Parsed.ofText "a.b = (c.d) = e" with
    | error e => exact ⟨e, (ofText_forbids _).1 e hparsed⟩
    | ok parsed =>
      rw [hparsed] at hrejected
      exact nomatch hrejected

end Program

end LoxForms
