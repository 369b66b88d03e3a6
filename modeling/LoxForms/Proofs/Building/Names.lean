import LoxForms.Proofs.Building.Lookups
import LoxForms.Proofs.Building.Passing
/-!
# The names of variables

A variable of a program, and what an assignment gives a value to, is one of the leaves
that are looked up in the tree (`Tree.lookups`). So what is known of these leaves is known
of the names in the program (`Program.namesVariables`). The name of a superclass has the
form of a variable as well, but it is no leaf that is looked up; and it stands nowhere but
in its class.
-/

namespace LoxForms

open Building Value

namespace Value

variable {N : String → Prop} {r : Rule} {v : Value} {us : List Value}

/-- To be a token for a word of which something is known. -/
def IsNameIn (N : String → Prop) (name : Value) : Prop :=
  ∃ lexeme line, name = token .identifier lexeme .nil line ∧ N lexeme

/-- A value whose parts that are variables, but for a superclass, have names of which
something is known; and so has the variable to which it assigns something. -/
structure NamesVariables (N : String → Prop) (v : Value) : Prop where
  parts : ∀ part ∈ v.subvalues, part.1 ≠ .base → ∀ name, part.2 = variableName name →
    IsNameIn N name
  assigned : ∀ name value, v = assign name value → IsNameIn N name

/-- The same for a value that is no superclass, with all that stands in it. -/
def Named (N : String → Prop) (v : Value) : Prop :=
  (∀ name, v = variableName name → IsNameIn N name) ∧ v.Throughout (NamesVariables N)

theorem namesVariables_of_parts (h : ∀ part ∈ v.subvalues, part.1 ≠ .base → Named N part.2)
    (hassigned : ∀ name value, v = assign name value → IsNameIn N name) : NamesVariables N v :=
  ⟨fun part hpart hrole => (h part hpart hrole).1, hassigned⟩

/-- A value that names no variable is named if its parts are. -/
theorem named_of_parts (hvariable : ∀ name, v ≠ variableName name)
    (hassign : ∀ name value, v ≠ assign name value)
    (hparts : ∀ part ∈ v.subvalues, Named N part.2) : Named N v :=
  ⟨fun name h => absurd h (hvariable name), throughout_iff.mpr
    ⟨namesVariables_of_parts (fun part hpart _ => hparts part hpart)
      fun name value h => absurd h (hassign name value),
      fun part hpart => (hparts part hpart).2⟩⟩

theorem carries_named (N : String → Prop) : Carries (Named N) where
  part hv hpart hrole := ⟨hv.2.self.parts _ hpart hrole, hv.2.part hpart⟩
  node {v} _ _ hnaming hparts := by
    have hnot : ∀ name, v ≠ variableName name ∧ ∀ value, v ≠ assign name value := by
      intro name
      cases v <;> simp [isNaming] at hnaming ⊢
    exact named_of_parts (fun name => (hnot name).1) (fun name => (hnot name).2) hparts

theorem named_readLexeme {l : Lexeme} (h : Program.readLexeme l = .ok v) : Named N v := by
  obtain ⟨-, denoted, hdenoted, rfl⟩ := Program.readLexeme_eq_ok.mp h
  exact named_of_parts nofun nofun
    (parts_one ((carries_named N).plain (isPlain_of_denotes hdenoted)))

/-- A variable by itself, which can be a superclass. -/
theorem throughout_variableName {name : Value} (h : Named N name) :
    (variableName name).Throughout (NamesVariables N) := by
  refine throughout_iff.mpr ⟨namesVariables_of_parts (fun part hpart _ => ?_) nofun,
    parts_one (S := Throughout _) h.2⟩
  exact parts_one h part hpart

theorem named_classDecl {name base : Value} (hname : Named N name)
    (hbase : base.Throughout (NamesVariables N)) (hus : ∀ u ∈ us, Named N u)
    (hv : ofRule .classDecl (name :: base :: us) = .ok v) : Named N v := by
  obtain ⟨-, -, -, rfl⟩ := ofRule_classDecl.mp hv
  refine ⟨nofun, throughout_iff.mpr ⟨namesVariables_of_parts ?_ nofun, ?_⟩⟩
  · intro part hpart hrole
    rw [subvalues, List.mem_cons, List.mem_cons] at hpart
    rcases hpart with rfl | rfl | hpart
    · exact hname
    · exact absurd rfl hrole
    · exact parts_each hus part hpart
  · rw [subvalues, List.forall_mem_cons, List.forall_mem_cons]
    exact ⟨hname.2, hbase, fun part hpart => (parts_each hus part hpart).2⟩

/-- **A rule names no variables of its own**, but for the one that makes variables. -/
theorem named_ofRule (hus : ∀ u ∈ us, Named N u) (hclass : r ≠ .classDecl)
    (hbase : r ≠ .superclass) (hvariable : r ≠ .variableName) (hv : ofRule r us = .ok v) :
    Named N v := by
  refine (carries_named N).ofRule hus hclass hbase (fun _ h => absurd h hvariable) ?_ ?_ ?_ hv
  · rintro name value - rfl
    rw [List.forall_mem_cons, List.forall_mem_singleton] at hus
    have hname : Named N name :=
      (carries_named N).part (r := .token) hus.1 List.mem_cons_self (by decide)
    refine ⟨nofun, throughout_iff.mpr ⟨namesVariables_of_parts ?_ ?_, ?_⟩⟩
    · exact fun part hpart _ => parts_two hname hus.2 part hpart
    · intro name' value' heq
      obtain ⟨rfl, -⟩ := Value.assign.inj heq
      exact hus.1.1 _ rfl
    · exact fun part hpart => (parts_two hname hus.2 part hpart).2
  · rintro c t e - rfl
    exact named_of_parts nofun nofun
      (parts_three (hus c (by simp)) (hus t (by simp)) (hus e (by simp)))
  · intro c b _ _ _ hc hb _
    exact named_of_parts nofun nofun (parts_two hc hb)

end Value

/-! ## Rows -/

/-- What is known of the values of a row of slots. Only of a superclass it is not known
what it is called. -/
def NamedRow (N : String → Prop) : List Slot → List Value → Prop
  | [], us => us = []
  | .keep _ :: slots, us => ∃ v us', us = v :: us' ∧ Named N v ∧ NamedRow N slots us'
  | .drop _ :: slots, us => NamedRow N slots us
  | .absent :: slots, us => ∃ us', us = .nil :: us' ∧ NamedRow N slots us'
  | .phrase n :: slots, us =>
    ∃ us₁ us₂, us = us₁ ++ us₂ ∧ NamedRow N slots us₂ ∧
      if n = .superclass then ∃ u, us₁ = [u] ∧ u.Throughout (NamesVariables N)
      else ∀ u ∈ us₁, Named N u

variable {N : String → Prop} {slots : List Slot} {us vs : List Value} {p : Production}

theorem NamedRow.named (h : NamedRow N slots us) (hslots : .phrase .superclass ∉ slots) :
    ∀ u ∈ us, Named N u := by
  induction slots generalizing us with
  | nil =>
    obtain rfl : us = [] := h
    exact List.forall_mem_nil _
  | cons s slots ih =>
    have hrest := List.not_mem_of_not_mem_cons hslots
    cases s with
    | keep =>
      obtain ⟨v, us, rfl, hv, h⟩ := h
      exact List.forall_mem_cons.mpr ⟨hv, ih h hrest⟩
    | drop => exact ih h hrest
    | absent =>
      obtain ⟨us, rfl, h⟩ := h
      exact List.forall_mem_cons.mpr ⟨(carries_named N).nil, ih h hrest⟩
    | phrase n =>
      obtain ⟨us₁, us₂, rfl, h, hphrase⟩ := h
      have hn : n ≠ .superclass := by
        rintro rfl
        exact hslots List.mem_cons_self
      rw [if_neg hn] at hphrase
      exact List.forall_mem_append.mpr ⟨hphrase, ih h hrest⟩

/-- Whether a shape makes nodes of one of several rules. -/
def Shape.isOf (rules : List Rule) : Shape → Bool
  | node (.rule r) | nodeUnlessSingle (.rule r) => rules.contains r
  | _ => false

/-- What is checked of the grammar: a superclass comes after the name of a class and
nowhere else, and besides variables themselves, nothing but superclasses and classes is
made by rules that name variables or take superclasses. -/
theorem Grammar.names_of_mem (hp : p ∈ Grammar.productions) (hne : p ≠ Grammar.lookup) :
    p = named .superclass .superclass [.drop .less, .keep .identifier] ∨
    (∃ slots, p = named .classDecl .classDecl
      (.drop .classWord :: .keep .identifier :: .phrase .superclass :: slots) ∧
        .phrase .superclass ∉ slots) ∨
    (∃ slots, p = named .classDecl .classDecl
      (.drop .classWord :: .keep .identifier :: .absent :: slots) ∧
        .phrase .superclass ∉ slots) ∨
    p.phrase ≠ .superclass ∧ .phrase .superclass ∉ p.slots ∧
      p.shape.isOf [.classDecl, .superclass, .variableName] = false := by
  have all_names : ∀ p ∈ productions.toList, p ≠ lookup →
      p = named .superclass .superclass [.drop .less, .keep .identifier] ∨
      (p = named .classDecl .classDecl
        (.drop .classWord :: .keep .identifier :: .phrase .superclass :: p.slots.drop 3) ∧
          .phrase .superclass ∉ p.slots.drop 3) ∨
      (p = named .classDecl .classDecl
        (.drop .classWord :: .keep .identifier :: .absent :: p.slots.drop 3) ∧
          .phrase .superclass ∉ p.slots.drop 3) ∨
      p.phrase ≠ .superclass ∧ .phrase .superclass ∉ p.slots ∧
        p.shape.isOf [.classDecl, .superclass, .variableName] = false := by
    decide +kernel
  rcases all_names p (Array.mem_toList_iff.mpr hp) hne with h | ⟨h, hslots⟩ | ⟨h, hslots⟩ | h
  · exact .inl h
  · exact .inr (.inl ⟨_, h, hslots⟩)
  · exact .inr (.inr (.inl ⟨_, h, hslots⟩))
  · exact .inr (.inr (.inr h))

/-- **What a production makes has the names that its children have.** -/
theorem NamedRow.values (hp : p ∈ Grammar.productions) (hne : p ≠ Grammar.lookup)
    (h : NamedRow N p.slots us) (hvalues : p.shape.values us = .ok vs) :
    if p.phrase = .superclass then ∃ u, vs = [u] ∧ u.Throughout (NamesVariables N)
    else ∀ u ∈ vs, Named N u := by
  rcases Grammar.names_of_mem hp hne with rfl | ⟨slots, rfl, hslots⟩ | ⟨slots, rfl, hslots⟩ |
    ⟨hphrase, hslots, hrule⟩
  · obtain ⟨name, _, rfl, hname, rfl⟩ := h
    obtain ⟨v, hv, rfl⟩ := Shape.values_node.mp hvalues
    obtain ⟨-, rfl⟩ := ofRule_superclass.mp (ofNode_rule.mp hv)
    exact ⟨_, rfl, throughout_variableName hname⟩
  · obtain ⟨name, _, rfl, hname, us₁, us₂, rfl, hrest, base, rfl, hbase⟩ := h
    obtain ⟨v, hv, rfl⟩ := Shape.values_node.mp hvalues
    exact List.forall_mem_singleton.mpr
      (named_classDecl hname hbase (hrest.named hslots) (ofNode_rule.mp hv))
  · obtain ⟨name, _, rfl, hname, us, rfl, hrest⟩ := h
    obtain ⟨v, hv, rfl⟩ := Shape.values_node.mp hvalues
    exact List.forall_mem_singleton.mpr
      (named_classDecl hname (carries_named N).nil.2 (hrest.named hslots) (ofNode_rule.mp hv))
  · rw [if_neg hphrase]
    have hus := h.named hslots
    rcases Shape.values_eq_ok hvalues with ⟨l, v, hshape, hv, rfl⟩ | ⟨rfl, -⟩
    · refine List.forall_mem_singleton.mpr ?_
      cases l with
      | rule r =>
        have hr : [.classDecl, .superclass, .variableName].contains r = false := by
          rcases hshape with hshape | ⟨hshape, -⟩ <;> rwa [hshape] at hrule
        simp only [List.contains_cons, Bool.or_eq_false_iff, beq_eq_false_iff_ne] at hr
        exact named_ofRule hus hr.1 hr.2.1 hr.2.2.1 (ofNode_rule.mp hv)
      | other name =>
        obtain rfl := Except.ok.inj hv
        exact named_of_parts nofun nofun (List.forall_mem_map.mpr hus)
    · exact hus

/-! ## Trees -/

/-- A variable that is looked up has the name of its leaf. -/
theorem Reads.named_lookup {after : TokenKind} {w : List Lexeme} {ts : List (Tree Lexeme)}
    (h : Reads after Grammar.lookup.slots w ts)
    (hlookups : ∀ l ∈ Tree.lookupsOfAll (Grammar.lookup.shape.apply ts), N l.text)
    (hbuild : Tree.buildAll Program.readLexeme (Grammar.lookup.shape.apply ts) = .ok vs) :
    ∀ u ∈ vs, Named N u := by
  cases h with
  | @keep _ _ l _ _ _ hl hrest =>
    cases hrest
    obtain ⟨v, hv, _, hnil, rfl⟩ := Tree.buildAll_cons_eq_ok.mp hbuild
    obtain rfl := Except.ok.inj hnil
    obtain ⟨us, hus, hv⟩ := bind_eq_ok.mp hv
    obtain ⟨u, hu, _, hnil, rfl⟩ := Tree.buildAll_cons_eq_ok.mp hus
    obtain rfl := Except.ok.inj hnil
    obtain ⟨-, rfl⟩ := ofRule_variableName.mp (ofNode_rule.mp hv)
    refine List.forall_mem_singleton.mpr ⟨?_, throughout_variableName (named_readLexeme hu)⟩
    obtain ⟨-, denoted, hdenoted, rfl⟩ := Program.readLexeme_eq_ok.mp hu
    rintro _ ⟨⟩
    have hnone : denoted = .nil := by rwa [Lexeme.Denotes, hl] at hdenoted
    exact ⟨l.text, l.first.line, by rw [hl, hnone], hlookups l List.mem_cons_self⟩

/-- **The names of what has been read are those of the leaves that are looked up.** -/
theorem Reads.named {after : TokenKind} {w : List Lexeme} {ts : List (Tree Lexeme)}
    (h : Reads after slots w ts) (hlookups : ∀ l ∈ Tree.lookupsOfAll ts, N l.text)
    (hbuild : Tree.buildAll Program.readLexeme ts = .ok vs) : NamedRow N slots vs := by
  induction h generalizing vs with
  | done =>
    obtain rfl := Except.ok.inj hbuild
    rfl
  | keep _ _ ih =>
    obtain ⟨v, hv, ws, hws, rfl⟩ := Tree.buildAll_cons_eq_ok.mp hbuild
    exact ⟨v, ws, rfl, named_readLexeme hv, ih hlookups hws⟩
  | drop _ _ ih => exact ih hlookups hbuild
  | absent _ _ ih =>
    obtain ⟨v, hv, ws, hws, rfl⟩ := Tree.buildAll_cons_eq_ok.mp hbuild
    obtain rfl := Except.ok.inj hv
    exact ⟨ws, rfl, ih hlookups hws⟩
  | @phrase _ p _ _ _ us _ hp hin _ ihin ih =>
    obtain ⟨v₁, v₂, h₁, h₂, rfl⟩ := Tree.buildAll_append_eq_ok.mp hbuild
    rw [Tree.lookupsOfAll_append, List.forall_mem_append] at hlookups
    refine ⟨v₁, v₂, rfl, ih hlookups.2 h₂, ?_⟩
    by_cases hne : p = Grammar.lookup
    · subst hne
      exact hin.named_lookup hlookups.1 h₁
    · rw [Shape.lookupsOfAll_apply (Grammar.isLookup_of_mem hp hne)] at hlookups
      obtain ⟨us, hus, hvalues⟩ := (Shape.buildAll_apply p.shape).mp h₁
      exact (ihin hlookups.1 hus).values hp hne hvalues

/-- **The variables of a program are called as the leaves that are looked up.** -/
theorem Program.namesVariables {text : String} {parsed : Parsed} {statements : List Value}
    (hparsed : Parsed.ofText text = .ok parsed) (hlookups : ∀ l ∈ parsed.tree.lookups, N l.text)
    (h : ofText text = .ok statements) :
    ∀ s ∈ statements, s.Throughout (NamesVariables N) := by
  obtain ⟨_, hparsed', v, hbuild, rfl⟩ := ofText_eq_ok.mp h
  obtain rfl := Except.ok.inj (hparsed.symm.trans hparsed')
  have hall : ∀ l ∈ Tree.lookupsOfAll [parsed.tree], N l.text := by
    rwa [Tree.lookupsOfAll, Tree.lookupsOfAll, List.append_nil]
  have hrow := (Parsed.reads hparsed).named hall
    (Tree.buildAll_cons_eq_ok.mpr ⟨v, hbuild, [], rfl, rfl⟩)
  have hv := (hrow.named (by decide) v List.mem_cons_self).2
  intro s hs
  cases v with
  | list items => exact hv.part (r := .item) (List.mem_map.mpr ⟨s, hs, rfl⟩)
  | _ => exact absurd hs List.not_mem_nil

end LoxForms
