import LoxForms.Proofs.Automaton.Edges
import LoxForms.Proofs.Grammar.Reading
/-!
# Where the lexemes lead

Each lexeme that a row of symbols reads leads to a state, and in this state the next
one is looked for. `Lands` is a reading together with these states. They are the same
wherever a phrase is read, since the tokens of a production lead to the same states
from wherever the production begins (`landings_eq`), and whatever comes after it except
for an `else`: `Reads.lands`.
-/

namespace LoxForms

namespace Automaton

/-- Each phrase can be read somewhere. -/
theorem exists_goto (n : Nonterminal) : ∃ q, (goto? q n).isSome := by
  have all_read : ∀ n ∈ Nonterminal.all,
      (List.range states.size).any fun q => ((table.row q).gotos.lookup n).isSome := by
    rw [← quickTable_eq]
    decide +kernel
  obtain ⟨q, -, hq⟩ := List.any_eq_true.mp (all_read n n.mem_all)
  exact ⟨q, hq⟩

/-! ## The tokens of a production -/

/-- The states that the tokens of a row lead to. -/
def Source.landings (source : Source) (q : Nat) : List Atom → List Nat
  | [] => []
  | .token k :: as =>
    match (source.row q).shifts.lookup k with
    | some r => r :: source.landings r as
    | none => []
  | .phrase n :: as =>
    match (source.row q).gotos.lookup n with
    | some r => source.landings r as
    | none => []

/-- The states that the tokens of a production lead to, for each state where its phrase
can be read. -/
def Source.allLandings (source : Source) (p : Production) : List (List Nat) :=
  (List.range states.size).filterMap fun q =>
    ((source.row q).gotos.lookup p.phrase).map fun _ => source.landings q p.atoms

/-- Whether all lists of a list are the same. -/
def alike : List (List Nat) → Bool
  | [] => true
  | l :: ls => ls.all (· == l)

theorem eq_of_alike {ls : List (List Nat)} (h : alike ls) {l m : List Nat} (hl : l ∈ ls)
    (hm : m ∈ ls) : l = m := by
  cases ls with
  | nil => exact nomatch hl
  | cons first ls =>
    rw [alike, List.all_eq_true] at h
    have hfirst : ∀ x ∈ first :: ls, x = first :=
      List.forall_mem_cons.mpr ⟨rfl, fun x hx => eq_of_beq (h x hx)⟩
    rw [hfirst l hl, hfirst m hm]

theorem alike_allLandings : ∀ p ∈ Grammar.productions.toList, alike (table.allLandings p) := by
  rw [← quickTable_eq]
  decide +kernel

theorem landings_token {q r : Nat} {k : TokenKind} (h : step? q (.token k) = some r)
    (as : List Atom) : table.landings q (.token k :: as) = r :: table.landings r as := by
  have hrow : (table.row q).shifts.lookup k = some r := h
  rw [Source.landings, hrow]

theorem landings_phrase {q r : Nat} {n : Nonterminal} (h : goto? q n = some r) (as : List Atom) :
    table.landings q (.phrase n :: as) = table.landings r as := by
  have hrow : (table.row q).gotos.lookup n = some r := h
  rw [Source.landings, hrow]

/-- **The tokens of a production lead to the same states** wherever it begins. -/
theorem landings_eq {p : Production} {q q' r r' : Nat} (hp : p ∈ Grammar.productions)
    (h : goto? q p.phrase = some r) (h' : goto? q' p.phrase = some r') :
    table.landings q p.atoms = table.landings q' p.atoms := by
  have hmem : ∀ {q r : Nat}, goto? q p.phrase = some r →
      table.landings q p.atoms ∈ table.allLandings p := by
    intro q r h
    have hlt := lt_size_of_step (a := .phrase p.phrase) h
    have hrow : (table.row q).gotos.lookup p.phrase = some r := h
    exact List.mem_filterMap.mpr ⟨q, List.mem_range.mpr hlt, by rw [hrow]; rfl⟩
  exact eq_of_alike (alike_allLandings p (Array.mem_toList_iff.mpr hp)) (hmem h) (hmem h')

end Automaton

open Automaton

/-- What a row of symbols reads from a state on, with the state that each lexeme leads
to. -/
inductive Lands : TokenKind → Nat → List Slot → List Lexeme → List (Tree Lexeme) → List Nat → Prop
  | done {after : TokenKind} {q : Nat} : Lands after q [] [] [] []
  | keep {after k : TokenKind} {q r : Nat} {l : Lexeme} {slots : List Slot} {w : List Lexeme}
      {ts : List (Tree Lexeme)} {rs : List Nat} :
      l.kind = k → step? q (.token k) = some r → Lands after r slots w ts rs →
      Lands after q (.keep k :: slots) (l :: w) (.leaf l :: ts) (r :: rs)
  | drop {after k : TokenKind} {q r : Nat} {l : Lexeme} {slots : List Slot} {w : List Lexeme}
      {ts : List (Tree Lexeme)} {rs : List Nat} :
      l.kind = k → step? q (.token k) = some r → Lands after r slots w ts rs →
      Lands after q (.drop k :: slots) (l :: w) ts (r :: rs)
  | absent {after : TokenKind} {q : Nat} {slots : List Slot} {w : List Lexeme}
      {ts : List (Tree Lexeme)} {rs : List Nat} :
      upcoming after w ≠ .elseWord → Lands after q slots w ts rs →
      Lands after q (.absent :: slots) w (.absent :: ts) rs
  | phrase {after : TokenKind} {p : Production} {q r : Nat} {slots : List Slot}
      {u w : List Lexeme} {us ts : List (Tree Lexeme)} {qs rs : List Nat} :
      p ∈ Grammar.productions → goto? q p.phrase = some r →
      Lands (upcoming after w) q p.slots u us qs → Lands after r slots w ts rs →
      Lands after q (.phrase p.phrase :: slots) (u ++ w) (p.shape.apply us ++ ts) (qs ++ rs)

variable {after : TokenKind} {q : Nat} {slots : List Slot} {w : List Lexeme}
variable {ts : List (Tree Lexeme)} {qs : List Nat}

theorem Lands.reads (h : Lands after q slots w ts qs) : Reads after slots w ts := by
  induction h with
  | done => exact .done
  | keep hl _ _ ih => exact .keep hl ih
  | drop hl _ _ ih => exact .drop hl ih
  | absent hn _ ih => exact .absent hn ih
  | phrase hp _ _ _ ihin ih => exact .phrase hp ihin ih

theorem Lands.length_eq (h : Lands after q slots w ts qs) : qs.length = w.length := by
  induction h with
  | done => rfl
  | keep _ _ _ ih | drop _ _ _ ih => exact congrArg (· + 1) ih
  | absent _ _ ih => exact ih
  | phrase _ _ _ _ ihin ih => rw [List.length_append, List.length_append, ihin, ih]

theorem walk?_of_step {r : Nat} {a : Atom} (h : step? q a = some r) (as : List Atom) :
    walk? q (a :: as) = walk? r as := by
  rw [walk?, h, Option.bind_some]

theorem walk?_cons_isSome {a : Atom} {as : List Atom} :
    (walk? q (a :: as)).isSome ↔ ∃ r, step? q a = some r ∧ (walk? r as).isSome := by
  simp only [Option.isSome_iff_exists, walk?, Option.bind_eq_some_iff]
  constructor
  · rintro ⟨last, r, hr, hlast⟩
    exact ⟨r, hr, last, hlast⟩
  · rintro ⟨r, hr, last, hlast⟩
    exact ⟨last, r, hr, hlast⟩

/-- **Rows are read one after the other**, the second one from where the first one leads. -/
theorem Lands.append {r : Nat} {u : List Lexeme} {us : List (Tree Lexeme)} {ps : List Nat}
    {more : List Slot} (h : Lands (upcoming after w) q slots u us ps)
    (hr : walk? q (slots.filterMap Slot.atom?) = some r) (hrest : Lands after r more w ts qs) :
    Lands after q (slots ++ more) (u ++ w) (us ++ ts) (ps ++ qs) := by
  generalize hk : upcoming after w = k at h
  induction h with
  | done =>
    obtain rfl := Option.some.inj hr
    exact hrest
  | keep hl hstep _ ih =>
    obtain ⟨_, hstep', hr⟩ := walk?_cons hr
    obtain rfl := Option.some.inj (hstep.symm.trans hstep')
    exact .keep hl hstep (ih hr hk)
  | drop hl hstep _ ih =>
    obtain ⟨_, hstep', hr⟩ := walk?_cons hr
    obtain rfl := Option.some.inj (hstep.symm.trans hstep')
    exact .drop hl hstep (ih hr hk)
  | absent hne _ ih =>
    subst hk
    exact .absent (by rwa [upcoming_append]) (ih hr rfl)
  | phrase hp hgoto hin _ _ ih =>
    obtain ⟨_, hgoto', hr⟩ := walk?_cons hr
    obtain rfl := Option.some.inj (hgoto.symm.trans hgoto')
    subst hk
    rw [List.append_assoc, List.append_assoc, List.append_assoc]
    exact .phrase hp hgoto (by rwa [upcoming_append]) (ih hr rfl)

/-- **A row is read part by part.** -/
theorem Lands.of_append {more : List Slot} (h : Lands after q (slots ++ more) w ts qs) :
    ∃ u v us vs ps rs r, w = u ++ v ∧ ts = us ++ vs ∧ qs = ps ++ rs ∧
      walk? q (slots.filterMap Slot.atom?) = some r ∧
      Lands (upcoming after v) q slots u us ps ∧ Lands after r more v vs rs := by
  generalize hs : slots ++ more = all at h
  induction h generalizing slots with
  | @done _ q =>
    obtain ⟨rfl, rfl⟩ := List.append_eq_nil_iff.mp hs
    exact ⟨[], [], [], [], [], [], q, rfl, rfl, rfl, rfl, .done, .done⟩
  | @keep _ _ q _ _ _ _ _ _ hl hstep hrest ih =>
    rcases List.append_eq_cons_iff.mp hs with ⟨rfl, rfl⟩ | ⟨rest, rfl, rfl⟩
    · exact ⟨[], _, [], _, [], _, q, rfl, rfl, rfl, rfl, .done, .keep hl hstep hrest⟩
    · obtain ⟨u, v, us, vs, ps, rs, r, rfl, rfl, rfl, hwalk, hu, hv⟩ := ih rfl
      exact ⟨_ :: u, v, _ :: us, vs, _ :: ps, rs, r, rfl, rfl, rfl,
        (walk?_of_step (a := .token _) hstep _).trans hwalk, .keep hl hstep hu, hv⟩
  | @drop _ _ q _ _ _ _ _ _ hl hstep hrest ih =>
    rcases List.append_eq_cons_iff.mp hs with ⟨rfl, rfl⟩ | ⟨rest, rfl, rfl⟩
    · exact ⟨[], _, [], _, [], _, q, rfl, rfl, rfl, rfl, .done, .drop hl hstep hrest⟩
    · obtain ⟨u, v, us, vs, ps, rs, r, rfl, rfl, rfl, hwalk, hu, hv⟩ := ih rfl
      exact ⟨_ :: u, v, us, vs, _ :: ps, rs, r, rfl, rfl, rfl,
        (walk?_of_step (a := .token _) hstep _).trans hwalk, .drop hl hstep hu, hv⟩
  | @absent _ q _ _ _ _ hne hrest ih =>
    rcases List.append_eq_cons_iff.mp hs with ⟨rfl, rfl⟩ | ⟨rest, rfl, rfl⟩
    · exact ⟨[], _, [], _, [], _, q, rfl, rfl, rfl, rfl, .done, .absent hne hrest⟩
    · obtain ⟨u, v, us, vs, ps, rs, r, rfl, rfl, rfl, hwalk, hu, hv⟩ := ih rfl
      exact ⟨u, v, _ :: us, vs, ps, rs, r, rfl, rfl, rfl, hwalk,
        .absent (by rwa [← upcoming_append]) hu, hv⟩
  | @phrase _ p q _ _ _ _ _ _ _ _ hp hgoto hin hrest _ ih =>
    rcases List.append_eq_cons_iff.mp hs with ⟨rfl, rfl⟩ | ⟨rest, rfl, rfl⟩
    · exact ⟨[], _, [], _, [], _, q, rfl, rfl, rfl, rfl, .done, .phrase hp hgoto hin hrest⟩
    · obtain ⟨u, v, us, vs, ps, rs, r, rfl, rfl, rfl, hwalk, hu, hv⟩ := ih rfl
      refine ⟨_ ++ u, v, _ ++ us, vs, _ ++ ps, rs, r, (List.append_assoc ..).symm,
        (List.append_assoc ..).symm, (List.append_assoc ..).symm,
        (walk?_of_step (a := .phrase _) hgoto _).trans hwalk, ?_, hv⟩
      exact .phrase hp hgoto (by rwa [← upcoming_append]) hu

/-- The last token of a row leads to where the row ends. -/
theorem Lands.exists_last {k : TokenKind} (h : Lands after q (slots ++ [Slot.drop k]) w ts qs) :
    ∃ ps r, qs = ps ++ [r] ∧ walk? q ((slots ++ [Slot.drop k]).filterMap Slot.atom?) = some r := by
  obtain ⟨_, _, _, _, ps, _, r, -, -, rfl, hwalk, -, hlast⟩ := h.of_append
  cases hlast with
  | @drop _ _ _ r' _ _ _ _ _ _ hstep hnil =>
    cases hnil
    refine ⟨ps, r', rfl, ?_⟩
    rw [List.filterMap_append, walk?_append, hwalk]
    exact (walk?_of_step hstep []).trans rfl

/-- **What a phrase reads, one of its productions reads** along the same states. -/
theorem Lands.of_phrase {n : Nonterminal} (h : Lands after q [.phrase n] w ts qs) :
    ∃ p ∈ Grammar.productions, p.phrase = n ∧ (∃ r, goto? q n = some r) ∧
      ∃ us, Lands after q p.slots w us qs ∧ ts = p.shape.apply us := by
  generalize hs : [Slot.phrase n] = slots at h
  cases h with
  | @phrase _ p _ r _ u _ us _ qs _ hp hr hin hrest =>
    obtain ⟨hn, rfl⟩ := List.cons.inj hs
    cases hrest
    rw [List.append_nil, List.append_nil, List.append_nil, Slot.phrase.inj hn]
    exact ⟨p, hp, rfl, ⟨r, hr⟩, us, hin, rfl⟩
  | _ => exact nomatch hs

/-- **What is read has its states**: the same from every state where the tokens of the
row lead to the same states, and before everything but an `else`. -/
theorem Reads.lands (h : Reads after slots w ts)
    (hwalk : (walk? q (slots.filterMap Slot.atom?)).isSome) :
    ∃ qs, ∀ k q', k = after ∨ k ≠ .elseWord →
      (walk? q' (slots.filterMap Slot.atom?)).isSome →
      table.landings q' (slots.filterMap Slot.atom?) =
        table.landings q (slots.filterMap Slot.atom?) → Lands k q' slots w ts qs := by
  have hnext : ∀ {k after : TokenKind} (w : List Lexeme), k = after ∨ k ≠ .elseWord →
      upcoming k w = upcoming after w ∨ upcoming k w ≠ .elseWord := by
    intro k after w hk
    cases w with
    | nil => exact hk
    | cons l w => exact .inl rfl
  induction h generalizing q with
  | done => exact ⟨[], fun _ _ _ _ _ => .done⟩
  | @keep _ j l slots w ts hl _ ih | @drop _ j l slots w ts hl _ ih =>
    obtain ⟨r, hr, hwalk⟩ := walk?_cons_isSome.mp hwalk
    obtain ⟨qs, hlands⟩ := ih hwalk
    refine ⟨r :: qs, fun k q' hk hwalk' hsame => ?_⟩
    obtain ⟨r', hr', hwalk'⟩ := walk?_cons_isSome.mp hwalk'
    have hsame : table.landings q' (.token j :: slots.filterMap Slot.atom?) =
        table.landings q (.token j :: slots.filterMap Slot.atom?) := hsame
    rw [landings_token hr', landings_token hr] at hsame
    obtain ⟨rfl, -⟩ := List.cons.inj hsame
    first
    | exact .keep hl hr' (hlands k r' hk hwalk' rfl)
    | exact .drop hl hr' (hlands k r' hk hwalk' rfl)
  | @absent after _ w _ hn _ ih =>
    obtain ⟨qs, hlands⟩ := ih hwalk
    refine ⟨qs, fun k q' hk hwalk' hsame => .absent ?_ (hlands k q' hk hwalk' hsame)⟩
    rcases hnext w hk with heq | hne
    · rwa [heq]
    · exact hne
  | @phrase _ p slots u w us ts hp _ _ ihin ih =>
    obtain ⟨r, hr, hwalk⟩ := walk?_cons_isSome.mp hwalk
    obtain ⟨last, hlast, -⟩ := walk_of_goto hr hp
    obtain ⟨qs, hin⟩ := ihin (Option.isSome_iff_exists.mpr ⟨last, hlast⟩)
    obtain ⟨rs, hrest⟩ := ih hwalk
    refine ⟨qs ++ rs, fun k q' hk hwalk' hsame => ?_⟩
    obtain ⟨r', hr', hwalk'⟩ := walk?_cons_isSome.mp hwalk'
    obtain ⟨last', hlast', -⟩ := walk_of_goto hr' hp
    have hsame : table.landings q' (.phrase p.phrase :: slots.filterMap Slot.atom?) =
        table.landings q (.phrase p.phrase :: slots.filterMap Slot.atom?) := hsame
    rw [landings_phrase hr', landings_phrase hr] at hsame
    exact .phrase hp hr' (hin _ q' (hnext w hk) (Option.isSome_iff_exists.mpr ⟨last', hlast'⟩)
      (landings_eq hp hr' hr)) (hrest k r' hk hwalk' hsame)

/-- **A phrase has its states wherever it is read.** -/
theorem Reads.lands_phrase {n : Nonterminal} (h : Reads after [.phrase n] w ts)
    (hq : (goto? q n).isSome) :
    ∃ qs, ∀ k q', k = after ∨ k ≠ .elseWord → (goto? q' n).isSome →
      Lands k q' [.phrase n] w ts qs := by
  have hwalk : ∀ {q}, (goto? q n).isSome → (walk? q [.phrase n]).isSome := by
    intro q hq
    rwa [walk?_singleton]
  obtain ⟨qs, hlands⟩ := h.lands (hwalk hq)
  refine ⟨qs, fun k q' hk hq' => hlands k q' hk (hwalk hq') ?_⟩
  obtain ⟨r, hr⟩ := Option.isSome_iff_exists.mp hq
  obtain ⟨r', hr'⟩ := Option.isSome_iff_exists.mp hq'
  exact (landings_phrase hr' []).trans (landings_phrase hr []).symm

end LoxForms
