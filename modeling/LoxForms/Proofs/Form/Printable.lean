import LoxForms.Proofs.Form.Inspection
/-!
# The values that have a form

A value has a form exactly if it is a node and each of its fields is what is asked of it,
and so on down. `Meets` says what that is, whatever else the fields could hold, and `texts`
what the parts are written as; the form of a node is then its layout
(`form_eq_ok_iff`). Both follow what there is to see of a value, and everything is seen
once (`weight`). A tree whose fields hold what they are declared to hold is a special
case.
-/

namespace LoxForms

namespace Form

open Building Value

variable {d : Demand} {v : Value} {m : Members} {items : List (Demand × Value)}
variable {ts : List String}

/-! ## Everything is looked at once -/

/-- A bound on all that is looked at in a value. -/
noncomputable def weight : Demand → Value → Nat
  | .token, _ | .constant, _ => 0
  | .tokens, _ => 1
  | .part, v | .optionalPart, v | .base, v => 2 * sizeOf v
  | .members _, v => 2 * sizeOf v + 1
  | .member m, v => if m.includes v then 2 * sizeOf v else 0

theorem weight_le (d : Demand) (v : Value) : weight d v ≤ 2 * sizeOf v + 1 := by
  cases d <;> simp only [weight] <;> try omega
  split <;> omega

theorem sizeOf_lt_of_mem_fields {x : Demand × Value} (h : x ∈ fields v) :
    sizeOf x.2 < sizeOf v := by
  cases v <;> simp only [fields, List.mem_cons, List.not_mem_nil, or_false] at h <;>
    rcases h with rfl | rfl | rfl <;> simp <;> omega

theorem weight_of_node (h : inspect d v = .node) : weight d v = 2 * sizeOf v := by
  cases d with
  | token | constant => cases v <;> cases h
  | tokens => exact absurd h through_ne_node
  | members m => exact absurd h through_ne_node
  | part | optionalPart | base => rfl
  | member m =>
    rw [inspect] at h
    split at h
    next hm => rw [weight, if_pos hm]
    next => cases h

theorem weight_field_lt {x : Demand × Value} (h : inspect d v = .node) (hx : x ∈ fields v) :
    weight x.1 x.2 < weight d v := by
  have hle := weight_le x.1 x.2
  have hlt := sizeOf_lt_of_mem_fields hx
  rw [weight_of_node h]
  omega

theorem sizeOf_lt_of_mem_elements {us : List Value} {u : Value} (h : v.elements? = some us)
    (hu : u ∈ us) (hm : m.includes u) : sizeOf u < sizeOf v := by
  have hnode := isNode_of_includes hm
  cases v <;> simp only [elements?, reduceCtorEq, Option.some.injEq] at h <;> subst h
  case list | tuple =>
    have := List.sizeOf_lt_of_mem hu
    simp
    omega
  case dictionary entries =>
    obtain ⟨⟨_, w⟩, hentry, rfl⟩ := List.mem_map.mp hu
    have := List.sizeOf_lt_of_mem hentry
    simp at this ⊢
    omega
  -- The characters of a text and bytes are no nodes.
  all_goals
    obtain ⟨_, -, rfl⟩ := List.mem_map.mp hu
    cases hnode

theorem weight_item_lt {x : Demand × Value} (h : inspect d v = .through items) (hx : x ∈ items) :
    weight x.1 x.2 < weight d v := by
  have hpart : inspectPart v = .through items → weight x.1 x.2 < 2 * sizeOf v := by
    intro h
    obtain ⟨us, hv, rfl⟩ := inspectPart_eq_through h
    obtain ⟨u, hu, rfl⟩ := List.mem_map.mp hx
    have hsize := List.sizeOf_lt_of_mem hu
    rcases hv with rfl | rfl <;> simp [weight] <;> omega
  cases d with
  | token | constant | base => cases v <;> cases h
  | tokens =>
    obtain ⟨us, -, rfl⟩ := through_eq_through h
    obtain ⟨u, -, rfl⟩ := List.mem_map.mp hx
    exact Nat.one_pos
  | members m =>
    obtain ⟨us, hus, rfl⟩ := through_eq_through h
    obtain ⟨u, hu, rfl⟩ := List.mem_map.mp hx
    simp only [weight]
    split
    next hm =>
      have := sizeOf_lt_of_mem_elements hus hu hm
      omega
    next => omega
  | part => exact hpart h
  | optionalPart => cases v <;> first | exact hpart h | cases h
  | member m =>
    rw [inspect] at h
    split at h <;> cases h

/-! ## Texts -/

/-- The texts of a value of which something is asked: those that it shows, those of all
that one goes through in it one after the other, or the layout of a node. -/
def texts (d : Demand) (v : Value) : List String :=
  match h : inspect d v with
  | .shown ts => ts
  | .faulty _ => []
  | .through items => items.attach.flatMap fun ⟨x, hx⟩ =>
      have := weight_item_lt h hx
      texts x.1 x.2
  | .node => [layout v ((fields v).attach.map fun ⟨x, hx⟩ =>
      have := weight_field_lt h hx
      texts x.1 x.2)]
termination_by weight d v

theorem texts_of_shown (h : inspect d v = .shown ts) : texts d v = ts := by
  rw [texts]
  split <;> simp_all

theorem texts_of_through (h : inspect d v = .through items) :
    texts d v = (items.map fun x => texts x.1 x.2).flatten := by
  rw [texts]
  split
  case h_3 items' h' =>
    obtain rfl := Inspection.through.inj (h.symm.trans h')
    simp [List.flatMap_def, List.map_attach_eq_pmap]
  all_goals simp_all

theorem texts_of_node (h : inspect d v = .node) :
    texts d v = [layout v ((fields v).map fun x => texts x.1 x.2)] := by
  rw [texts]
  split
  case h_4 => simp [List.map_attach_eq_pmap]
  all_goals simp_all

/-! ## To be what is asked -/

/-- To be what is asked: of a field that one goes through, each element has to be. -/
inductive Meets : Demand → Value → Prop
  | token {v : Value} : v.isToken → Meets .token v
  | tokens {v : Value} {us : List Value} :
      v.elements? = some us → (∀ u ∈ us, Meets .token u) → Meets .tokens v
  /-- A literal holds nothing, a truth value, a text or a number. -/
  | constant {v : Value} : v = .nil ∨ (plain? v).isSome → Meets .constant v
  /-- A token, a text, a number or a truth value is a part. -/
  | tokenPart {v : Value} : v.isToken → Meets .part v
  | plainPart {v : Value} : (plain? v).isSome → Meets .part v
  /-- So are lists and tuples of parts, at any depth. -/
  | list {us : List Value} : (∀ u ∈ us, Meets .part u) → Meets .part (.list us)
  | tuple {us : List Value} : (∀ u ∈ us, Meets .part u) → Meets .part (.tuple us)
  /-- So is a node of any variant, if its fields are what is asked of them. -/
  | node {v : Value} : v.isNode → (∀ f ∈ fields v, Meets f.1 f.2) → Meets .part v
  | noPart : Meets .optionalPart .nil
  | somePart {v : Value} : Meets .part v → Meets .optionalPart v
  | noBase : Meets .base .nil
  /-- A superclass is a variable. -/
  | someBase {name : Value} : Meets .token name → Meets .base (.variableName name)
  | members {m : Members} {v : Value} {us : List Value} :
      v.elements? = some us → (∀ u ∈ us, Meets (.member m) u) → Meets (.members m) v
  | member {m : Members} {v : Value} :
      m.includes v → (∀ f ∈ fields v, Meets f.1 f.2) → Meets (.member m) v

/-- To have nothing wrong where one looks. -/
def Inspection.IsFine (v : Value) : Inspection → Prop
  | .shown _ => True
  | .faulty _ => False
  | .through items => ∀ x ∈ items, Meets x.1 x.2
  | .node => ∀ x ∈ fields v, Meets x.1 x.2

theorem forall_mem_map_demand {us : List Value} :
    (∀ x ∈ us.map (d, ·), Meets x.1 x.2) ↔ ∀ u ∈ us, Meets d u := by simp

theorem isFine_inspectPart : (inspectPart v).IsFine v ↔ Meets .part v := by
  constructor
  · intro h
    cases v with
    | list us => exact .list (forall_mem_map_demand.mp h)
    | tuple us => exact .tuple (forall_mem_map_demand.mp h)
    | token => exact .tokenPart rfl
    | bool | int | float | text => exact .plainPart rfl
    | nil | dictionary | bytes | kind | object | otherExpression | tree => exact h.elim
    | _ => exact .node rfl h
  · intro h
    cases h with
    | tokenPart h | plainPart h => cases v <;> trivial
    | list h | tuple h => exact forall_mem_map_demand.mpr h
    | node hnode h => cases v <;> first | exact h | exact nomatch hnode

theorem isFine_through {d' : Demand}
    (h : ∀ v, Meets d v ↔ ∃ us, v.elements? = some us ∧ ∀ u ∈ us, Meets d' u) :
    (through d' v).IsFine v ↔ Meets d v := by
  rw [h]
  unfold through
  cases helements : v.elements? with
  | none => exact ⟨False.elim, by simp⟩
  | some us =>
    show (∀ x ∈ us.map (d', ·), Meets x.1 x.2) ↔ _
    rw [forall_mem_map_demand]
    simp

/-- **To be what is asked is to be fine wherever one looks.** -/
theorem isFine_inspect : (inspect d v).IsFine v ↔ Meets d v := by
  cases d with
  | token =>
    constructor
    · intro h
      cases v <;> first | exact .token rfl | exact h.elim
    · intro h
      cases h with | token h => cases v <;> trivial
  | tokens =>
    refine isFine_through fun v => ⟨fun h => ?_, ?_⟩
    · cases h with | tokens hus h => exact ⟨_, hus, h⟩
    · rintro ⟨us, hus, h⟩
      exact .tokens hus h
  | constant =>
    constructor
    · intro h
      cases v <;> first | exact .constant (.inl rfl) | exact .constant (.inr rfl) | exact h.elim
    · intro h
      cases h with
      | constant h => cases v <;> first | trivial | exact absurd h (by simp [plain?])
  | part => exact isFine_inspectPart
  | optionalPart =>
    by_cases hv : v = .nil
    · subst hv
      exact ⟨fun _ => .noPart, fun _ => trivial⟩
    · rw [inspect_optionalPart hv, isFine_inspectPart]
      refine ⟨.somePart, fun h => ?_⟩
      cases h with
      | noPart => exact absurd rfl hv
      | somePart h => exact h
  | base =>
    constructor
    · intro h
      cases v <;> first | exact .noBase | exact .someBase (h _ (.head _)) | exact h.elim
    · intro h
      cases h with
      | noBase => trivial
      | someBase h => exact List.forall_mem_singleton.mpr h
  | members m =>
    refine isFine_through fun v => ⟨fun h => ?_, ?_⟩
    · cases h with | members hus h => exact ⟨_, hus, h⟩
    · rintro ⟨us, hus, h⟩
      exact .members hus h
  | member m =>
    rw [inspect]
    split
    next hm =>
      refine ⟨.member hm, fun h => ?_⟩
      cases h with | member _ h => exact h
    next hm =>
      refine ⟨False.elim, fun h => ?_⟩
      cases h with | member h _ => exact absurd h hm

/-! ## What is asked is shown -/

theorem mapM_of_forall_ok {α β ε : Type} {f : α → Except ε β} {g : α → β} {xs : List α}
    (h : ∀ x ∈ xs, f x = .ok (g x)) : xs.mapM f = .ok (xs.map g) := by
  induction xs with
  | nil => rfl
  | cons x xs ih =>
    rw [List.forall_mem_cons] at h
    rw [List.mapM_cons, h.1, ih h.2]
    rfl

theorem parts_of_fields (hnode : v.isNode)
    (h : ∀ x ∈ fields v, look x.1 x.2 = .ok (texts x.1 x.2)) :
    parts v = .ok [layout v ((fields v).map fun x => texts x.1 x.2)] := by
  obtain ⟨variant, hvariant⟩ := Option.isSome_iff_exists.mp hnode
  rw [parts_node hvariant, mapM_of_forall_ok h]
  rfl

/-- **What is asked is shown**, with all its texts. -/
theorem Meets.look_eq {d : Demand} {v : Value} (h : Meets d v) : look d v = .ok (texts d v) := by
  have hfine := isFine_inspect.mpr h
  rw [Form.look_eq]
  generalize hi : inspect d v = i at hfine ⊢
  cases i with
  | shown ts =>
    rw [texts_of_shown hi]
    rfl
  | faulty => exact hfine.elim
  | through items =>
    rw [texts_of_through hi, Inspection.outcome,
      mapM_of_forall_ok fun x hx => (hfine x hx).look_eq]
    rfl
  | node =>
    rw [texts_of_node hi]
    exact parts_of_fields (isNode_of_inspect hi) fun x hx => (hfine x hx).look_eq
termination_by weight d v
decreasing_by
  · exact weight_item_lt hi hx
  · exact weight_field_lt hi hx

theorem forall_ok_of_mapM {α β ε : Type} {f : α → Except ε β} {xs : List α} {ys : List β}
    (h : xs.mapM f = .ok ys) : ∀ x ∈ xs, ∃ y, f x = .ok y := by
  induction xs generalizing ys with
  | nil => exact fun x hx => absurd hx List.not_mem_nil
  | cons x xs ih =>
    rw [List.mapM_cons] at h
    obtain ⟨y, hy, h⟩ := bind_eq_ok.mp h
    obtain ⟨ys, hys, -⟩ := bind_eq_ok.mp h
    exact List.forall_mem_cons.mpr ⟨⟨y, hy⟩, ih hys⟩

/-- **What is shown is what is asked.** -/
theorem meets_of_look {d : Demand} {v : Value} {ts : List String} (h : look d v = .ok ts) :
    Meets d v := by
  rw [← isFine_inspect]
  rw [look_eq] at h
  generalize hi : inspect d v = i at h ⊢
  cases i with
  | shown => trivial
  | faulty => cases h
  | through items =>
    obtain ⟨tss, htss, -⟩ := bind_eq_ok.mp ((map_eq_pure_bind _ _).symm.trans h)
    intro x hx
    obtain ⟨ts, hts⟩ := forall_ok_of_mapM htss x hx
    exact meets_of_look hts
  | node =>
    obtain ⟨variant, hvariant⟩ := Option.isSome_iff_exists.mp (isNode_of_inspect hi)
    intro x hx
    have hfields : ∃ tss, ((fields v).mapM fun f => look f.1 f.2) = .ok tss := by
      rw [Inspection.outcome, parts_node hvariant] at h
      cases hmap : (fields v).mapM fun f => look f.1 f.2 with
      | ok tss => exact ⟨tss, rfl⟩
      | error e =>
        rw [hmap] at h
        cases h
    obtain ⟨tss, htss⟩ := hfields
    obtain ⟨ts, hts⟩ := forall_ok_of_mapM htss x hx
    exact meets_of_look hts
termination_by weight d v
decreasing_by
  · exact weight_item_lt hi hx
  · exact weight_field_lt hi hx

end Form

namespace Value

open Form

/-! ## Printable nodes -/

/-- A node whose fields are what is asked of them. -/
def Printable (v : Value) : Prop := Meets (.member .nodes) v

/-- How a node is written: its layout, with the texts of its fields. -/
def tabled (v : Value) : String := layout v ((fields v).map fun f => texts f.1 f.2)

/-- An expression whose fields hold what they are declared to hold. -/
inductive TypedExpression : Value → Prop
  | binary {left operator right : Value} : TypedExpression left → operator.isToken →
      TypedExpression right → TypedExpression (.binary left operator right)
  | grouping {e : Value} : TypedExpression e → TypedExpression (.grouping e)
  | literal {v : Value} : v = .nil ∨ (plain? v).isSome → TypedExpression (.literal v)
  | unary {operator right : Value} :
      operator.isToken → TypedExpression right → TypedExpression (.unary operator right)
  | variableName {name : Value} : name.isToken → TypedExpression (.variableName name)
  | assign {name value : Value} :
      name.isToken → TypedExpression value → TypedExpression (.assign name value)
  | logical {left operator right : Value} : TypedExpression left → operator.isToken →
      TypedExpression right → TypedExpression (.logical left operator right)
  | call {callee : Value} {arguments : List Value} : TypedExpression callee →
      (∀ e ∈ arguments, TypedExpression e) → TypedExpression (.call callee (.list arguments))
  | get {owner name : Value} : TypedExpression owner → name.isToken →
      TypedExpression (.get owner name)
  | set {owner name value : Value} : TypedExpression owner → name.isToken →
      TypedExpression value → TypedExpression (.set owner name value)
  | super {method : Value} : method.isToken → TypedExpression (.super method)
  | this : TypedExpression .this

/-- A statement whose fields hold what they are declared to hold. -/
inductive TypedStatement : Value → Prop
  | expressionStatement {e : Value} : TypedExpression e → TypedStatement (.expressionStatement e)
  | print {e : Value} : TypedExpression e → TypedStatement (.print e)
  | returnStatement {e : Value} : e = .nil ∨ TypedExpression e → TypedStatement (.returnStatement e)
  | variableDeclaration {name e : Value} :
      name.isToken → e = .nil ∨ TypedExpression e → TypedStatement (.variableDeclaration name e)
  | block {statements : List Value} :
      (∀ s ∈ statements, TypedStatement s) → TypedStatement (.block (.list statements))
  | ifStatement {condition thenBranch : Value} : TypedExpression condition →
      TypedStatement thenBranch → TypedStatement (.ifStatement condition thenBranch .nil)
  | ifElseStatement {condition thenBranch elseBranch : Value} : TypedExpression condition →
      TypedStatement thenBranch → TypedStatement elseBranch →
      TypedStatement (.ifStatement condition thenBranch elseBranch)
  | whileStatement {condition body : Value} : TypedExpression condition → TypedStatement body →
      TypedStatement (.whileStatement condition body)
  | functionDeclaration {name : Value} {params body : List Value} : name.isToken →
      (∀ p ∈ params, p.isToken) → (∀ s ∈ body, TypedStatement s) →
      TypedStatement (.functionDeclaration name (.list params) (.list body))
  | classDeclaration {name base : Value} {methods : List Value} : name.isToken →
      (base = .nil ∨ ∃ superclass, base = .variableName superclass ∧ superclass.isToken) →
      (∀ m ∈ methods, IsFunction m) → (∀ m ∈ methods, TypedStatement m) →
      TypedStatement (.classDeclaration name base (.list methods))

variable {v : Value}

theorem TypedExpression.isNode (h : TypedExpression v) : v.isNode := by
  cases h <;> rfl

theorem TypedStatement.isNode (h : TypedStatement v) : v.isNode := by
  cases h <;> rfl

theorem TypedExpression.fields_meet (h : TypedExpression v) : ∀ f ∈ fields v, Meets f.1 f.2 := by
  induction h with
  | binary hl ho hr ihl ihr | logical hl ho hr ihl ihr =>
    simp [fields, Meets.token ho, Meets.node hl.isNode ihl, Meets.node hr.isNode ihr]
  | grouping h ih => simp [fields, Meets.node h.isNode ih]
  | literal h => simp [fields, Meets.constant h]
  | unary ho h ih | assign ho h ih => simp [fields, Meets.token ho, Meets.node h.isNode ih]
  | variableName h | super h => simp [fields, Meets.token h]
  | call h hargs ih ihargs =>
    simp [fields, Meets.node h.isNode ih,
      Meets.list fun e he => Meets.node (hargs e he).isNode (ihargs e he)]
  | get h hn ih => simp [fields, Meets.token hn, Meets.node h.isNode ih]
  | set h hn hv ih ihv =>
    simp [fields, Meets.token hn, Meets.node h.isNode ih, Meets.node hv.isNode ihv]
  | this => simp [fields]

theorem TypedExpression.meets (h : TypedExpression v) : Meets .part v :=
  .node h.isNode h.fields_meet

theorem meets_of_nil_or_typed (h : v = .nil ∨ TypedExpression v) : Meets .optionalPart v := by
  rcases h with rfl | h
  · exact .noPart
  · exact .somePart h.meets

theorem TypedStatement.fields_meet (h : TypedStatement v) : ∀ f ∈ fields v, Meets f.1 f.2 := by
  induction h with
  | expressionStatement h | print h => simp [fields, h.meets]
  | returnStatement h => simp [fields, meets_of_nil_or_typed h]
  | variableDeclaration hn h => simp [fields, Meets.token hn, meets_of_nil_or_typed h]
  | block hs ih =>
    have hbody : Meets (.members .nodes) (.list _) :=
      .members rfl fun s hs' => .member (hs s hs').isNode (ih s hs')
    simp [fields, hbody]
  | ifStatement hc h ih => simp [fields, hc.meets, Meets.node h.isNode ih, Meets.noPart]
  | ifElseStatement hc h he ih ihe =>
    simp [fields, hc.meets, Meets.node h.isNode ih, Meets.somePart (.node he.isNode ihe)]
  | whileStatement hc h ih => simp [fields, hc.meets, Meets.node h.isNode ih]
  | functionDeclaration hn hparams hs ih =>
    have hbody : Meets (.members .nodes) (.list _) :=
      .members rfl fun s hs' => .member (hs s hs').isNode (ih s hs')
    have hparams : Meets .tokens (.list _) := .tokens rfl fun p hp => .token (hparams p hp)
    simp [fields, Meets.token hn, hparams, hbody]
  | @classDeclaration name base methods hn hbase hfunctions _ ih =>
    have hmethods : Meets (.members .methods) (.list methods) := by
      refine .members rfl fun m hm => .member ?_ (ih m hm)
      obtain ⟨_, _, _, rfl⟩ := hfunctions m hm
      rfl
    have hbase : Meets .base base := by
      rcases hbase with rfl | ⟨superclass, rfl, h⟩
      · exact .noBase
      · exact .someBase (.token h)
    simp [fields, Meets.token hn, hbase, hmethods]

theorem Printable.form_eq (h : v.Printable) : v.form = .ok v.tabled := by
  have hi : inspect (.member .nodes) v = .node := by
    cases h with | member h _ => exact if_pos h
  rw [Form.form_eq, h.look_eq, texts_of_node hi]
  exact congrArg Except.ok (by rw [String.join_cons, String.join_nil, String.append_empty, tabled])

/-- **The printable nodes are the values that have a form**, and it is the one that they
are laid out to. Every tree whose fields hold what they are declared to hold is among
them. -/
theorem form_eq_ok_iff (v : Value) :
    (∀ s, v.form = .ok s ↔ v.Printable ∧ s = v.tabled) ∧
      (TypedExpression v ∨ TypedStatement v → v.Printable) := by
  refine ⟨fun s => ⟨fun h => ?_, fun ⟨h, hs⟩ => hs ▸ h.form_eq⟩, ?_⟩
  · have hprintable : v.Printable := by
      rw [Form.form_eq] at h
      obtain ⟨ts, hts, -⟩ := Building.bind_eq_ok.mp ((map_eq_pure_bind _ _).symm.trans h)
      exact meets_of_look hts
    exact ⟨hprintable, Except.ok.inj (h.symm.trans hprintable.form_eq)⟩
  · rintro (h | h)
    · exact .member h.isNode h.fields_meet
    · exact .member h.isNode h.fields_meet

theorem form_eq_ok_iff_spliced :
    (call (variableName (token .identifier "f" nil 1)) (tuple [int 1, list [text "x"]])).Printable ∧
      TypedStatement (print (literal nil)) ∧ (print (literal nil)).Printable := by
  have htyped : TypedStatement (print (literal nil)) := .print (.literal (.inl rfl))
  exact ⟨(((form_eq_ok_iff _).1 "(call f 1 x)").mp rfl).1, htyped,
    (form_eq_ok_iff _).2 (.inr htyped)⟩

end Value

end LoxForms
