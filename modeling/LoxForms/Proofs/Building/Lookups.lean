import LoxForms.Proofs.Automaton.Soundness
import LoxForms.Proofs.Building.Rows
import LoxForms.Proofs.Building.Total
/-!
# Building what has been read

Every tree that is read of a text is built, or something in it is forbidden:
`Reads.comes`. It takes what is known of the lexemes, and of those among them
that are looked up as variables (`Tree.lookups`).
-/

namespace LoxForms

open Building Value

/-! ## The variables of a tree -/

namespace Tree

variable {α : Type}

mutual

/-- The leaves of a tree that are looked up as variables. -/
def lookups : Tree α → List α
  | node (.rule .variableName) children => leavesOfAll children
  | node _ children => lookupsOfAll children
  | leaf _ => []
  | absent => []

def lookupsOfAll : List (Tree α) → List α
  | [] => []
  | t :: ts => lookups t ++ lookupsOfAll ts

end

theorem lookupsOfAll_append (ts us : List (Tree α)) :
    lookupsOfAll (ts ++ us) = lookupsOfAll ts ++ lookupsOfAll us := by
  induction ts with
  | nil => rfl
  | cons t ts ih => rw [List.cons_append, lookupsOfAll, lookupsOfAll, ih, List.append_assoc]

theorem lookups_node {l : Label} (hl : l ≠ .rule .variableName) (ts : List (Tree α)) :
    (node l ts).lookups = lookupsOfAll ts := by
  unfold lookups
  split
  · rename_i heq
    obtain ⟨rfl, -⟩ := Tree.node.inj heq
    exact absurd rfl hl
  · rename_i heq
    obtain ⟨-, rfl⟩ := Tree.node.inj heq
    rfl
  · rename_i heq
    exact absurd heq (by simp)
  · rename_i heq
    exact absurd heq (by simp)

end Tree

/-- The rule that names the nodes of a shape. -/
def Shape.isLookup : Shape → Bool
  | node l | nodeUnlessSingle l => l == .rule .variableName
  | splice => false

theorem Grammar.isLookup_of_mem {p : Production} (hp : p ∈ Grammar.productions)
    (hne : p ≠ Grammar.lookup) : p.shape.isLookup = false := by
  have all_other : ∀ p ∈ Grammar.productions.toList, p ≠ lookup → p.shape.isLookup = false := by
    decide +kernel
  exact all_other p (Array.mem_toList_iff.mpr hp) hne

/-- Shaping other phrases looks nothing up. -/
theorem Shape.lookupsOfAll_apply {α : Type} {shape : Shape} (h : shape.isLookup = false)
    (ts : List (Tree α)) : Tree.lookupsOfAll (shape.apply ts) = Tree.lookupsOfAll ts := by
  have hnode : ∀ l : Label, (l == .rule .variableName) = false →
      Tree.lookupsOfAll [.node l ts] = Tree.lookupsOfAll ts := by
    intro l hl
    rw [Tree.lookupsOfAll, Tree.lookups_node (ne_of_beq_false hl), Tree.lookupsOfAll,
      List.append_nil]
  cases shape with
  | node l => exact hnode l h
  | splice => rfl
  | nodeUnlessSingle l =>
    match ts with
    | [] => exact hnode l h
    | [_] => rfl
    | _ :: _ :: _ => exact hnode l h

/-! ## Lexemes -/

/-- What has to be known of a lexeme. -/
def Lexeme.Bears (T : Terms) (l : Lexeme) : Prop :=
  Found l.kind l.text.toList ∧
    (l.kind ∈ [.number, .string] → ∃ denoted, l.Denotes denoted ∧ T.denoted denoted)

variable {T : Terms} {l : Lexeme}

theorem Lexeme.Bears.exists_token (h : l.Bears T)
    (hname : TokenKind.ofName? l.kind.grammarName = some l.kind) :
    ∃ denoted, Program.readLexeme l = .ok (.token l.kind l.text denoted l.first.line) ∧
      IsTokenFor T l.kind (.token l.kind l.text denoted l.first.line) := by
  obtain ⟨hfound, hdenoted⟩ := h
  by_cases hk : l.kind ∈ [.number, .string]
  · obtain ⟨denoted, hd, hT⟩ := hdenoted hk
    exact ⟨denoted, Program.readLexeme_eq_ok.mpr ⟨hname, denoted, hd, rfl⟩,
      l.text, denoted, l.first.line, rfl, hfound, by rwa [if_pos hk]⟩
  · have hd : l.Denotes .nil := by
      unfold Denotes
      split
      · rename_i heq
        exact absurd hk (by simp [heq])
      · rename_i heq
        exact absurd hk (by simp [heq])
      · rfl
    exact ⟨.nil, Program.readLexeme_eq_ok.mpr ⟨hname, .nil, hd, rfl⟩,
      l.text, .nil, l.first.line, rfl, hfound, by rw [if_neg hk]⟩

/-- A slot for a token that is kept only if its kind has one name. -/
def Slot.isNamed : Slot → Bool
  | keep k => TokenKind.ofName? k.grammarName == some k
  | _ => true

theorem Grammar.isNamed_of_mem {p : Production} (hp : p ∈ Grammar.productions) :
    ∀ s ∈ p.slots, s.isNamed := by
  have all_named : ∀ p ∈ Grammar.productions.toList, ∀ s ∈ p.slots, s.isNamed := by decide +kernel
  exact all_named p (Array.mem_toList_iff.mpr hp)

/-! ## Trees -/

/-- A variable that is looked up stands for itself. -/
theorem Reads.comes_lookup {after : TokenKind} {w : List Lexeme} {ts : List (Tree Lexeme)}
    (h : Reads after Grammar.lookup.slots w ts) (hbears : ∀ l ∈ w, l.Bears T)
    (hlookups : ∀ l ∈ Tree.lookupsOfAll (Grammar.lookup.shape.apply ts), T.lookedUp l.text) :
    Comes BuildError.Forbids (Tree.buildAll Program.readLexeme (Grammar.lookup.shape.apply ts))
      (Fits T .primary) := by
  cases h with
  | @keep _ _ l _ _ _ hl hrest =>
    cases hrest
    rw [List.forall_mem_singleton] at hbears
    obtain ⟨denoted, hread, htoken⟩ := hbears.exists_token (by rw [hl]; rfl)
    rw [hl] at hread htoken
    obtain ⟨lexeme, line, hword, heq⟩ := htoken.isWordToken
    obtain ⟨-, rfl, rfl, -⟩ := Value.token.inj heq
    have hfree : T.lookedUp l.text := hlookups l List.mem_cons_self
    refine .of_ok (a := [variableName (.token .identifier l.text .nil l.first.line)]) ?_
      ⟨_, rfl, .variableName hword hfree⟩
    rw [Shape.buildAll_shaped, Tree.buildAll, Tree.build, hread]
    rfl

/-- **What is read is built, or it is forbidden.** To hold of all rows of these
slots is to hold of the values that come out. -/
theorem Reads.comes {after : TokenKind} {slots : List Slot} {w : List Lexeme}
    {ts : List (Tree Lexeme)} {P : List Value → Prop} (h : Reads after slots w ts)
    (hP : EachRow T slots P) (hslots : ∀ s ∈ slots, s.isNamed) (hbears : ∀ l ∈ w, l.Bears T)
    (hlookups : ∀ l ∈ Tree.lookupsOfAll ts, T.lookedUp l.text) :
    Comes BuildError.Forbids (Tree.buildAll Program.readLexeme ts) P := by
  induction h generalizing P with
  | done => exact .of_ok rfl hP
  | @keep _ k l _ _ _ hl _ ih =>
    rw [List.forall_mem_cons] at hslots hbears
    subst hl
    have hname : TokenKind.ofName? l.kind.grammarName = some l.kind := eq_of_beq hslots.1
    obtain ⟨denoted, hread, htoken⟩ := hbears.1.exists_token hname
    have hrest := ih (hP _ htoken) hslots.2 hbears.2 hlookups
    rw [Tree.buildAll, Tree.build, hread]
    exact hrest.bind fun us hus => .of_ok rfl hus
  | drop hl _ ih =>
    rw [List.forall_mem_cons] at hslots hbears
    exact ih hP hslots.2 hbears.2 hlookups
  | absent _ _ ih =>
    rw [List.forall_mem_cons] at hslots
    have hrest := ih hP hslots.2 hbears hlookups
    rw [Tree.buildAll, Tree.build]
    exact hrest.bind fun us hus => .of_ok rfl hus
  | @phrase after p _ u w us ts hp hin _ ihin ih =>
    rw [List.forall_mem_cons] at hslots
    rw [List.forall_mem_append] at hbears
    rw [Tree.lookupsOfAll_append, List.forall_mem_append] at hlookups
    have hfirst : Comes BuildError.Forbids
        (Tree.buildAll Program.readLexeme (p.shape.apply us)) (Fits T p.phrase) := by
      by_cases hne : p = Grammar.lookup
      · subst hne
        exact hin.comes_lookup hbears.1 hlookups.1
      · rw [Shape.lookupsOfAll_apply (Grammar.isLookup_of_mem hp hne)] at hlookups
        rw [Shape.buildAll_shaped]
        exact (ihin (total_of_mem hp hne) (Grammar.isNamed_of_mem hp) hbears.1 hlookups.1).bind
          fun _ => id
    rw [Tree.buildAll_append]
    refine hfirst.bind fun v₁ hv₁ => ?_
    exact (ih (hP v₁ hv₁) hslots.2 hbears.2 hlookups.2).bind fun v₂ hv₂ => .of_ok rfl hv₂

/-- **The tree of a text stands for statements, or something in it is
forbidden.** -/
theorem Parsed.comes {text : String} {parsed : Parsed} (h : Parsed.ofText text = .ok parsed)
    (hbears : ∀ l ∈ parsed.lexemes, l.Bears T)
    (hlookups : ∀ l ∈ parsed.tree.lookups, T.lookedUp l.text) :
    Comes BuildError.Forbids (parsed.tree.build Program.readLexeme)
      fun v => ∃ items, v = list items ∧ ∀ s ∈ items, MadeStatement T s := by
  have hrow : EachRow T [.phrase .program] (Fits T .program) := by
    intro vs hvs
    show Fits T .program (vs ++ [])
    rwa [List.append_nil]
  have hall : ∀ l ∈ Tree.lookupsOfAll [parsed.tree], T.lookedUp l.text := by
    rwa [Tree.lookupsOfAll, Tree.lookupsOfAll, List.append_nil]
  have hcomes := (Parsed.reads h).comes hrow (by decide) hbears hall
  rw [Tree.buildAll, Tree.buildAll] at hcomes
  rcases hcomes with ⟨_, hok, items, rfl, hitems⟩ | ⟨e, herror, he⟩
  · obtain ⟨v, hv, hrest⟩ := bind_eq_ok.mp hok
    obtain rfl := (List.cons.inj (Except.ok.inj hrest)).1
    exact .of_ok hv ⟨items, rfl, hitems⟩
  · refine .inr ⟨e, ?_, he⟩
    cases hv : parsed.tree.build Program.readLexeme with
    | ok v =>
      rw [hv] at herror
      change Except.ok [v] = Except.error e at herror
      exact absurd herror (by simp)
    | error e' =>
      rw [hv] at herror
      exact congrArg Except.error (Except.error.inj herror)

end LoxForms
