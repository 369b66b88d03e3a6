import LoxForms.Program
import LoxForms.Proofs.Building.Rules
import LoxForms.Proofs.Grammar.Reading
/-!
# Values row by row

A fact about the values that come out of a text is proved production by
production: given what the symbols of a production stand for, one shows what
its phrase stands for. `Account` says what is to be shown of tokens and
phrases, `Row` is what is known then of the symbols of a production, and
`Reads.row` is the induction, done once for all such facts.
-/

namespace LoxForms

open Building

/-! ## Building a row of trees -/

namespace Tree

variable {α : Type} {read : α → Except BuildError Value} {ts us : List (Tree α)}
variable {vs ws : List Value}

theorem buildAll_cons_eq_ok {t : Tree α} :
    buildAll read (t :: ts) = .ok vs ↔
      ∃ v, t.build read = .ok v ∧ ∃ ws, buildAll read ts = .ok ws ∧ vs = v :: ws := by
  simp only [buildAll, bind_eq_ok, pure_eq_ok]

/-- Building goes on from left to right. -/
theorem buildAll_append (ts us : List (Tree α)) : buildAll read (ts ++ us) = (do
    let v₁ ← buildAll read ts
    let v₂ ← buildAll read us
    return v₁ ++ v₂) := by
  induction ts with
  | nil =>
    rw [List.nil_append]
    cases hus : buildAll read us with
    | error e => rfl
    | ok v₂ => rfl
  | cons t ts ih =>
    rw [List.cons_append, buildAll, buildAll, ih]
    cases t.build read with
    | error e => rfl
    | ok v =>
      cases buildAll read ts with
      | error e => rfl
      | ok v₁ => cases buildAll read us <;> rfl

theorem buildAll_append_eq_ok : buildAll read (ts ++ us) = .ok vs ↔
    ∃ v₁ v₂, buildAll read ts = .ok v₁ ∧ buildAll read us = .ok v₂ ∧ vs = v₁ ++ v₂ := by
  simp only [buildAll_append, bind_eq_ok, pure_eq_ok, exists_and_left]

theorem length_of_buildAll (h : buildAll read ts = .ok vs) : vs.length = ts.length := by
  induction ts generalizing vs with
  | nil =>
    obtain rfl := Except.ok.inj h
    rfl
  | cons t ts ih =>
    obtain ⟨v, -, ws, hws, rfl⟩ := buildAll_cons_eq_ok.mp h
    rw [List.length_cons, List.length_cons, ih hws]

end Tree

/-- What a production makes of the values of its children. -/
def Shape.values : Shape → List Value → Except BuildError (List Value)
  | node l, us => return [← ofNode l us]
  | nodeUnlessSingle _, [u] => .ok [u]
  | nodeUnlessSingle l, us => return [← ofNode l us]
  | splice, us => .ok us

namespace Shape

variable {l : Label} {us vs : List Value}

theorem values_node : (node l).values us = .ok vs ↔ ∃ v, ofNode l us = .ok v ∧ vs = [v] := by
  simp only [values, bind_eq_ok, pure_eq_ok]

theorem values_single (u : Value) : (nodeUnlessSingle l).values [u] = .ok [u] := rfl

theorem values_nodeUnlessSingle (h : us.length ≠ 1) :
    (nodeUnlessSingle l).values us = (node l).values us := by
  match us with
  | [] => rfl
  | [u] => exact absurd rfl h
  | _ :: _ :: _ => rfl

/-- A production makes one node of what it has, or hands it on as it is. -/
theorem values_eq_ok {shape : Shape} (h : shape.values us = .ok vs) :
    (∃ l v, (shape = node l ∨ shape = nodeUnlessSingle l ∧ us.length ≠ 1) ∧
        ofNode l us = .ok v ∧ vs = [v]) ∨
      vs = us ∧ (shape = splice ∨ ∃ l u, shape = nodeUnlessSingle l ∧ us = [u]) := by
  cases shape with
  | node l =>
    obtain ⟨v, hv, rfl⟩ := values_node.mp h
    exact .inl ⟨l, v, .inl rfl, hv, rfl⟩
  | splice => exact .inr ⟨(Except.ok.inj h).symm, .inl rfl⟩
  | nodeUnlessSingle l =>
    by_cases hlen : us.length = 1
    · obtain ⟨u, rfl⟩ := List.length_eq_one_iff.mp hlen
      exact .inr ⟨(Except.ok.inj h).symm, .inr ⟨l, u, rfl, rfl⟩⟩
    · rw [values_nodeUnlessSingle hlen] at h
      obtain ⟨v, hv, rfl⟩ := values_node.mp h
      exact .inl ⟨l, v, .inr ⟨rfl, hlen⟩, hv, rfl⟩

theorem apply_nodeUnlessSingle {α : Type} {ts : List (Tree α)} (h : ts.length ≠ 1) :
    (nodeUnlessSingle l).apply ts = [.node l ts] := by
  match ts, h with
  | [], _ | _ :: _ :: _, _ => rfl

/-- **Shaping comes to the same before and after building.** -/
theorem buildAll_shaped {α : Type} {read : α → Except BuildError Value} (ts : List (Tree α))
    (shape : Shape) :
    Tree.buildAll read (shape.apply ts) = Tree.buildAll read ts >>= shape.values := by
  have hnode (l : Label) : Tree.buildAll read [.node l ts] =
      Tree.buildAll read ts >>= (node l).values := by
    rw [Tree.buildAll, Tree.build]
    cases Tree.buildAll read ts with
    | error e => rfl
    | ok us =>
      show (do return (← ofNode l us) :: (← Tree.buildAll read [])) = (node l).values us
      cases hu : ofNode l us with
      | error e => rw [values, hu]; rfl
      | ok u => rw [values, hu]; rfl
  cases shape with
  | node l => exact hnode l
  | splice => rw [apply]; cases Tree.buildAll read ts <;> rfl
  | nodeUnlessSingle l =>
    by_cases hts : ts.length = 1
    · obtain ⟨t, rfl⟩ := List.length_eq_one_iff.mp hts
      rw [apply, Tree.buildAll, Tree.buildAll]
      cases t.build read <;> rfl
    · rw [apply_nodeUnlessSingle hts, hnode]
      cases hus : Tree.buildAll read ts with
      | error e => rfl
      | ok us =>
        have hlen : us.length ≠ 1 := by rwa [Tree.length_of_buildAll hus]
        exact (values_nodeUnlessSingle hlen).symm

theorem buildAll_apply {α : Type} {read : α → Except BuildError Value} {ts : List (Tree α)}
    (shape : Shape) : Tree.buildAll read (shape.apply ts) = .ok vs ↔
      ∃ us, Tree.buildAll read ts = .ok us ∧ shape.values us = .ok vs := by
  rw [buildAll_shaped, bind_eq_ok]

end Shape

/-- A program is made of the tree that its text has. -/
theorem Program.ofText_eq_ok {text : String} {statements : List Value} :
    ofText text = .ok statements ↔ ∃ parsed, Parsed.ofText text = .ok parsed ∧
      ∃ v, parsed.tree.build readLexeme = .ok v ∧ statements = Program.statements v := by
  simp only [ofText, ofTree, bind_eq_ok, mapError_eq_ok, pure_eq_ok]

/-! ## Rows -/

/-- What is to be shown of the values that a text stands for, and of what there
is to say about its lexemes. -/
structure Account (σ : Type) where
  /-- What is known of a token that is kept, and of its value. -/
  keeps : TokenKind → Value → σ → Prop
  /-- What is known of a token that is dropped. -/
  drops : TokenKind → σ → Prop
  /-- What holds of the values of a phrase. -/
  phrase : Nonterminal → List Value → List σ → Prop

variable {σ : Type}

/-- What is known of a row of slots, given an account of its phrases. -/
def Account.Row (A : Account σ) : List Slot → List Value → List σ → Prop
  | [], us, gs => us = [] ∧ gs = []
  | .keep k :: slots, us, gs =>
    ∃ v g us' gs', us = v :: us' ∧ gs = g :: gs' ∧ A.keeps k v g ∧ A.Row slots us' gs'
  | .drop k :: slots, us, gs => ∃ g gs', gs = g :: gs' ∧ A.drops k g ∧ A.Row slots us gs'
  | .absent :: slots, us, gs => ∃ us', us = .nil :: us' ∧ A.Row slots us' gs
  | .phrase n :: slots, us, gs =>
    ∃ us₁ us₂ gs₁ gs₂, us = us₁ ++ us₂ ∧ gs = gs₁ ++ gs₂ ∧ A.phrase n us₁ gs₁ ∧ A.Row slots us₂ gs₂

/-- Whether a production accounts for its phrase. -/
def Account.Closed (A : Account σ) (p : Production) : Prop :=
  ∀ us vs gs, A.Row p.slots us gs → p.shape.values us = .ok vs → A.phrase p.phrase vs gs

/-- A slot for a token that is dropped only if it is always written in one way. -/
def Slot.isFixed : Slot → Bool
  | drop k => k.spelling?.isSome
  | _ => true

theorem Grammar.isFixed_of_mem {p : Production} (hp : p ∈ Grammar.productions) :
    ∀ s ∈ p.slots, s.isFixed := by
  have all_fixed : ∀ p ∈ Grammar.productions.toList, ∀ s ∈ p.slots, s.isFixed := by decide +kernel
  exact all_fixed p (Array.mem_toList_iff.mpr hp)

/-- **If every production accounts for its phrase, so does what is read.** -/
theorem Reads.row {A : Account σ} {say : Lexeme → σ} {after : TokenKind} {slots : List Slot}
    {w : List Lexeme} {ts : List (Tree Lexeme)} {vs : List Value}
    (hclosed : ∀ p ∈ Grammar.productions, A.Closed p) (h : Reads after slots w ts)
    (hslots : ∀ s ∈ slots, s.isFixed)
    (hkeeps : ∀ l ∈ w, ∀ v, Program.readLexeme l = .ok v → A.keeps l.kind v (say l))
    (hdrops : ∀ l ∈ w, l.kind.spelling?.isSome → A.drops l.kind (say l))
    (hbuild : Tree.buildAll Program.readLexeme ts = .ok vs) : A.Row slots vs (w.map say) := by
  induction h generalizing vs with
  | done =>
    obtain rfl := Except.ok.inj hbuild
    exact ⟨rfl, rfl⟩
  | @keep _ k l _ _ _ hl _ ih =>
    obtain ⟨v, hv, ws, hws, rfl⟩ := Tree.buildAll_cons_eq_ok.mp hbuild
    rw [List.forall_mem_cons] at hslots hkeeps hdrops
    have hrest := ih hslots.2 hkeeps.2 hdrops.2 hws
    exact ⟨v, say l, ws, _, rfl, rfl, hl ▸ hkeeps.1 v hv, hrest⟩
  | @drop _ k l _ _ _ hl _ ih =>
    rw [List.forall_mem_cons] at hslots hkeeps hdrops
    have hfixed : l.kind.spelling?.isSome := hl ▸ hslots.1
    have hrest := ih hslots.2 hkeeps.2 hdrops.2 hbuild
    exact ⟨say l, _, rfl, hl ▸ hdrops.1 hfixed, hrest⟩
  | absent _ _ ih =>
    obtain ⟨v, hv, ws, hws, rfl⟩ := Tree.buildAll_cons_eq_ok.mp hbuild
    obtain rfl := Except.ok.inj hv
    rw [List.forall_mem_cons] at hslots
    exact ⟨ws, rfl, ih hslots.2 hkeeps hdrops hws⟩
  | @phrase _ p _ u w _ _ hp _ _ ihin ih =>
    obtain ⟨v₁, v₂, h₁, h₂, rfl⟩ := Tree.buildAll_append_eq_ok.mp hbuild
    obtain ⟨us, hus, hvalues⟩ := (Shape.buildAll_apply p.shape).mp h₁
    rw [List.forall_mem_append] at hkeeps hdrops
    rw [List.forall_mem_cons] at hslots
    have hin := ihin (Grammar.isFixed_of_mem hp) hkeeps.1 hdrops.1 hus
    have hrest := ih hslots.2 hkeeps.2 hdrops.2 h₂
    exact ⟨v₁, v₂, u.map say, w.map say, rfl, List.map_append, hclosed p hp us v₁ _ hin hvalues,
      hrest⟩

end LoxForms
