import LoxForms.Proofs.Automaton.Completeness
import LoxForms.Proofs.Grammar.Sentences
/-!
# An `else` for the nearest `if`

If an `else` may belong to any `if`, then it may belong to the nearest one: so a
sentence is read as a program also by productions that leave it no choice
(`IsSentence.readable`).

Take an `if` with a branch and an `else`. If the branch can be read before an
`else`, all is well. If not, there is an `if` without an `else` at its end, so
that the branch goes on with the `else` as one statement, and the outer `if` has
none. That statement is shorter, so this comes to an end (`Tidy`).
-/

namespace LoxForms

variable {after k : TokenKind} {slots more : List Slot} {us vs ks : List TokenKind}

theorem upcoming_eq_headD (after : TokenKind) (w : List Lexeme) :
    upcoming after w = (w.map Lexeme.kind).headD after := by
  cases w <;> rfl

/-- Some lexemes of given kinds. -/
def Lexeme.ofKinds (ks : List TokenKind) : List Lexeme := ks.map (⟨·, "", .start, .start⟩)

theorem Lexeme.map_kind_ofKinds (ks : List TokenKind) : (ofKinds ks).map kind = ks := by
  rw [ofKinds, List.map_map]
  exact List.map_id ks

/-! ## Rows of kinds that are read -/

/-- Whatever lexemes are of these kinds, the slots read them. -/
def Readable (after : TokenKind) (slots : List Slot) (ks : List TokenKind) : Prop :=
  ∀ w : List Lexeme, w.map Lexeme.kind = ks → ∃ ts, Reads after slots w ts

namespace Readable

theorem nil : Readable after [] [] := by
  intro w hw
  obtain rfl := List.map_eq_nil_iff.mp hw
  exact ⟨[], .done⟩

theorem keep : Readable after [.keep k] [k] := by
  intro w hw
  obtain ⟨l, rest, rfl, hl, hrest⟩ := List.map_eq_cons_iff.mp hw
  obtain rfl := List.map_eq_nil_iff.mp hrest
  exact ⟨_, .keep hl .done⟩

theorem drop : Readable after [.drop k] [k] := by
  intro w hw
  obtain ⟨l, rest, rfl, hl, hrest⟩ := List.map_eq_cons_iff.mp hw
  obtain rfl := List.map_eq_nil_iff.mp hrest
  exact ⟨_, .drop hl .done⟩

theorem absent (h : after ≠ .elseWord) : Readable after [.absent] [] := by
  intro w hw
  obtain rfl := List.map_eq_nil_iff.mp hw
  exact ⟨_, .absent h .done⟩

theorem append (hu : Readable (vs.headD after) slots us) (hv : Readable after more vs) :
    Readable after (slots ++ more) (us ++ vs) := by
  intro w hw
  obtain ⟨u, v, rfl, rfl, rfl⟩ := List.map_eq_append_iff.mp hw
  obtain ⟨ts, hts⟩ := hu u rfl
  obtain ⟨ts', hts'⟩ := hv v rfl
  rw [← upcoming_eq_headD] at hts
  exact ⟨ts ++ ts', hts.append hts'⟩

theorem production {p : Production} (hp : p ∈ Grammar.productions) (h : Readable after p.slots ks) :
    Readable after [.phrase p.phrase] ks := by
  intro w hw
  obtain ⟨ts, hts⟩ := h w hw
  exact ⟨_, .production hp hts⟩

/-- What is read begins as the slots do. -/
theorem headD_mem (h : Readable after slots ks) : ks.headD after ∈ Slot.firsts after slots := by
  have hkinds := Lexeme.map_kind_ofKinds ks
  obtain ⟨ts, hts⟩ := h _ hkinds
  have hfirst := hts.upcoming_mem
  rwa [upcoming_eq_headD, hkinds] at hfirst

/-- What comes after a row that ends with a token makes no difference. -/
theorem of_drop (h : Readable after (slots ++ [Slot.drop k]) ks) (j : TokenKind) :
    Readable j (slots ++ [Slot.drop k]) ks := by
  intro w hw
  obtain ⟨ts, hts⟩ := h w hw
  obtain ⟨u, v, us, vs, rfl, rfl, hu, hv⟩ := hts.of_append
  cases hv with
  | @drop _ _ l _ _ _ hl hrest =>
    cases hrest
    have hlast : Reads j [.drop k] [l] [] := .drop hl .done
    exact ⟨_, Reads.append hu hlast⟩

end Readable

/-! ## Rows that do not begin with an `else` -/

namespace Slot

/-- Whether a row does not begin with an `else`, nor does it after some of its
slots. -/
def elseless : List Slot → Bool
  | [] => true
  | s :: rest => !(firsts .endOfText (s :: rest)).contains .elseWord && elseless rest

theorem mem_firsts {j : TokenKind} (h : k ∈ firsts after slots) :
    k = after ∨ k ∈ firsts j slots := by
  induction slots with
  | nil => exact .inl (List.mem_singleton.mp h)
  | cons s rest ih =>
    cases s with
    | absent => exact ih h
    | keep | drop | phrase => exact .inr h

theorem ne_else_of_elseless (hs : elseless slots) (h : k ∈ firsts after slots)
    (ha : after ≠ .elseWord) : k ≠ .elseWord := by
  rintro rfl
  cases slots with
  | nil => exact ha (List.mem_singleton.mp h).symm
  | cons s rest =>
    rw [elseless, Bool.and_eq_true, Bool.not_eq_true', ← Bool.not_eq_true,
      List.contains_iff_mem] at hs
    exact (mem_firsts h).elim (fun heq => ha heq.symm) hs.1

theorem else_mem_firsts_append (h : .elseWord ∈ firsts .endOfText slots) :
    .elseWord ∈ firsts .endOfText (slots ++ more) := by
  induction slots with
  | nil => exact absurd h (by decide)
  | cons s rest ih =>
    cases s with
    | absent => exact ih h
    | keep | drop | phrase => exact h

theorem elseless_of_append (h : elseless (slots ++ more)) : elseless slots := by
  induction slots with
  | nil => rfl
  | cons s rest ih =>
    rw [List.cons_append, elseless, Bool.and_eq_true, Bool.not_eq_true', ← Bool.not_eq_true,
      List.contains_iff_mem] at h
    rw [elseless, Bool.and_eq_true, Bool.not_eq_true', ← Bool.not_eq_true, List.contains_iff_mem]
    exact ⟨mt else_mem_firsts_append h.1, ih h.2⟩

end Slot

/-! ## Phrase by phrase -/

/-- Symbols in a row, and what is known of the kinds that each phrase among them
makes. -/
inductive Made (P : Nonterminal → List TokenKind → Prop) : List Atom → List TokenKind → Prop
  | done : Made P [] []
  | token {k : TokenKind} {as : List Atom} {ks : List TokenKind} :
      Made P as ks → Made P (.token k :: as) (k :: ks)
  | phrase {n : Nonterminal} {as : List Atom} {us ks : List TokenKind} :
      P n us → Made P as ks → Made P (.phrase n :: as) (us ++ ks)

namespace Made

variable {P Q : Nonterminal → List TokenKind → Prop} {as bs : List Atom} {n : Nonterminal}

theorem of_append (h : Made P (as ++ bs) ks) :
    ∃ us vs, ks = us ++ vs ∧ Made P as us ∧ Made P bs vs := by
  induction as generalizing ks with
  | nil => exact ⟨[], ks, rfl, done, h⟩
  | cons a as ih =>
    cases h with
    | token hrest =>
      obtain ⟨us, vs, rfl, hu, hv⟩ := ih hrest
      exact ⟨_ :: us, vs, rfl, token hu, hv⟩
    | @phrase _ _ ws _ hn hrest =>
      obtain ⟨us, vs, rfl, hu, hv⟩ := ih hrest
      exact ⟨ws ++ us, vs, (List.append_assoc ..).symm, phrase hn hu, hv⟩

theorem of_phrase (h : Made P [.phrase n] ks) : P n ks := by
  cases h with
  | phrase hn hrest =>
    cases hrest
    rwa [List.append_nil]

/-- What is known of rows that are no longer than this one is known of its
phrases. -/
theorem mono (h : Made P as ks) (hPQ : ∀ n us, us.length ≤ ks.length → P n us → Q n us) :
    Made Q as ks := by
  induction h with
  | done => exact done
  | token _ ih =>
    refine token (ih fun n us hus => hPQ n us ?_)
    rw [List.length_cons]
    omega
  | @phrase n _ us ks hn _ ih =>
    rw [List.length_append] at hPQ
    exact phrase (hPQ n us (by omega) hn) (ih fun m vs hvs => hPQ m vs (by omega))

theorem makes (h : Made (fun n us => Makes [.phrase n] us) as ks) : Makes as ks := by
  induction h with
  | done => exact .done
  | token _ ih => exact .token ih
  | phrase hn _ ih => exact hn.append ih

end Made

/-- **What holds of a phrase if it holds of its parts** holds of all phrases. -/
theorem Makes.made {P : Nonterminal → List TokenKind → Prop} {as : List Atom}
    (hP : ∀ p ∈ Grammar.productions, ∀ ks, Made P p.atoms ks → P p.phrase ks)
    (h : Makes as ks) : Made P as ks := by
  induction h with
  | done => exact .done
  | token _ ih => exact .token ih
  | phrase hp _ _ ihin ih => exact .phrase (hP _ hp _ ihin) ih

/-- **Where nothing begins with an `else`, a row is read** if its phrases are. -/
theorem Made.readable (hs : Slot.elseless slots)
    (h : Made (fun n us => ∀ k ≠ .elseWord, Readable k [.phrase n] us)
      (slots.filterMap Slot.atom?) ks) :
    ∀ k ≠ .elseWord, Readable k slots ks := by
  intro k hk
  induction slots generalizing ks with
  | nil =>
    cases h
    exact .nil
  | cons s rest ih =>
    have hrest : Slot.elseless rest := (Bool.and_eq_true_iff.mp hs).2
    cases s with
    | keep j =>
      cases h with
      | token hks => exact Readable.append .keep (ih hrest hks)
    | drop j =>
      cases h with
      | token hks => exact Readable.append .drop (ih hrest hks)
    | absent =>
      have hks := ih hrest h
      have hnext := Slot.ne_else_of_elseless hrest hks.headD_mem hk
      exact Readable.append (.absent hnext) hks
    | phrase n =>
      cases h with
      | phrase hn hks =>
        have hks := ih hrest hks
        have hnext := Slot.ne_else_of_elseless hrest hks.headD_mem hk
        exact Readable.append (hn _ hnext) hks

/-! ## Statements -/

/-- A statement, and what a statement can be. -/
def Nonterminal.isStatement : Nonterminal → Bool
  | statement | exprStmt | forStmt | ifStmt | printStmt | returnStmt | whileStmt | block => true
  | _ => false

namespace Grammar

open Slot

/-- What an `if` begins with, up to its first branch. -/
def ifHead : List Slot :=
  [drop .ifWord, drop .leftParen, phrase .expression, drop .rightParen]

def ifElse : Production :=
  named .ifStmt .ifStmt (ifHead ++ [phrase .statement, drop .elseWord, phrase .statement])

def ifOnly : Production := named .ifStmt .ifStmt (ifHead ++ [phrase .statement, absent])

theorem ifElse_mem : ifElse ∈ productions :=
  mem_productions.mpr (.inr (.inl (by simp [statementRules, ifElse, ifHead])))

theorem ifOnly_mem : ifOnly ∈ productions :=
  mem_productions.mpr (.inr (.inl (by simp [statementRules, ifOnly, ifHead])))

variable {p : Production}

theorem elseless_of_mem (hp : p ∈ productions) (hne : p ≠ ifElse) : elseless p.slots := by
  have all_elseless : ∀ p ∈ productions.toList, p ≠ ifElse → elseless p.slots := by decide +kernel
  exact all_elseless p (Array.mem_toList_iff.mpr hp) hne

/-- How the production of a statement ends. -/
def endsStatement (p : Production) : Bool :=
  match p.slots.getLast? with
  | some (drop _) => true
  | some (phrase n) => n.isStatement
  | _ => p == ifOnly

theorem endsStatement_of_mem (hp : p ∈ productions) (hn : p.phrase.isStatement) :
    endsStatement p := by
  have all_end : ∀ p ∈ productions.toList, p.phrase.isStatement → endsStatement p := by
    decide +kernel
  exact all_end p (Array.mem_toList_iff.mpr hp) hn

theorem else_not_mem_first {n : Nonterminal} (hn : n.isStatement) : .elseWord ∉ n.first := by
  have all_first : ∀ n ∈ Nonterminal.all, n.isStatement → .elseWord ∉ n.first := by decide +kernel
  exact all_first n n.mem_all hn

end Grammar

/-- What is to be shown of the kinds that a phrase makes: that they are read
before anything but an `else`; and if the phrase is a statement, that they are
read before an `else` as well, or that the statement can go on with an `else`. -/
structure Tidy (n : Nonterminal) (ks : List TokenKind) : Prop where
  made : Makes [.phrase n] ks
  readable : ∀ k ≠ .elseWord, Readable k [.phrase n] ks
  goesOn : n.isStatement → Readable .elseWord [.phrase n] ks ∨
    ∀ vs, Makes [.phrase .statement] vs → Makes [.phrase n] (ks ++ .elseWord :: vs)

namespace Tidy

variable {m n : Nonterminal} {p : Production} {as : List Atom} {init : List Slot}

theorem makes_of_made (h : Made Tidy as ks) : Makes as ks :=
  (h.mono fun _ _ _ hn => hn.made).makes

theorem readable_of_made (hs : Slot.elseless slots)
    (h : Made Tidy (slots.filterMap Slot.atom?) ks) : ∀ k ≠ .elseWord, Readable k slots ks :=
  Made.readable hs (h.mono fun _ _ _ hn => hn.readable)

/-- A statement that ends with another one goes on as that one does. -/
theorem goesOn_of_last (hp : p ∈ Grammar.productions) (hslots : p.slots = init ++ [Slot.phrase m])
    (hinit : Slot.elseless init) (hm : m.isStatement)
    (hus : Made Tidy (init.filterMap Slot.atom?) us) (hvs : Tidy m vs) :
    Readable .elseWord [.phrase p.phrase] (us ++ vs) ∨
      ∀ xs, Makes [.phrase .statement] xs →
        Makes [.phrase p.phrase] (us ++ vs ++ .elseWord :: xs) := by
  rcases hvs.goesOn hm with hread | hmakes
  · left
    have hnext : vs.headD .elseWord ≠ .elseWord := by
      intro heq
      have hfirst : vs.headD .elseWord ∈ m.first := hread.headD_mem
      rw [heq] at hfirst
      exact Grammar.else_not_mem_first hm hfirst
    have hrow := (readable_of_made hinit hus _ hnext).append hread
    rw [← hslots] at hrow
    exact .production hp hrow
  · right
    intro xs hxs
    have hatoms : p.atoms = init.filterMap Slot.atom? ++ [Atom.phrase m] := by
      rw [Production.atoms, hslots, List.filterMap_append]
      rfl
    have hrow := (makes_of_made hus).append (hmakes xs hxs)
    rw [← hatoms, ← List.append_assoc] at hrow
    exact .production hp hrow

/-- Any other production than that of an `if` with an `else`. -/
theorem of_production (hp : p ∈ Grammar.productions) (hne : p ≠ Grammar.ifElse)
    (h : Made Tidy p.atoms ks) : Tidy p.phrase ks := by
  have hslots := Grammar.elseless_of_mem hp hne
  have hread := readable_of_made hslots h
  refine ⟨.production hp (makes_of_made h), fun k hk => .production hp (hread k hk), ?_⟩
  intro hn
  have hend := Grammar.endsStatement_of_mem hp hn
  unfold Grammar.endsStatement at hend
  split at hend
  · -- nothing is left open before the token at the end
    rename_i j hlast
    obtain ⟨init, hinit⟩ := List.getLast?_eq_some_iff.mp hlast
    have hany := hread .endOfText (by decide)
    rw [hinit] at hany
    have helse := hany.of_drop .elseWord
    rw [← hinit] at helse
    exact .inl (.production hp helse)
  · rename_i m hlast
    obtain ⟨init, hinit⟩ := List.getLast?_eq_some_iff.mp hlast
    have hatoms : p.atoms = init.filterMap Slot.atom? ++ [Atom.phrase m] := by
      rw [Production.atoms, hinit, List.filterMap_append]
      rfl
    rw [hatoms] at h
    obtain ⟨us, vs, rfl, hus, hvs⟩ := h.of_append
    rw [hinit] at hslots
    exact goesOn_of_last hp hinit (Slot.elseless_of_append hslots) hend hus hvs.of_phrase
  · -- an `if` without an `else` can get one
    obtain rfl := eq_of_beq hend
    right
    intro vs hvs
    have hatoms : Makes Grammar.ifElse.atoms (ks ++ .elseWord :: vs) :=
      (makes_of_made h).append (.token hvs)
    have hif : Makes [.phrase .ifStmt] (ks ++ .elseWord :: vs) :=
      .production Grammar.ifElse_mem hatoms
    exact hif

/-- An `if` is read if it is read from its first branch on. -/
theorem readable_if (hhead : Made Tidy (Grammar.ifHead.filterMap Slot.atom?) us)
    (h : Readable k (.phrase .statement :: slots) vs) :
    Readable k (Grammar.ifHead ++ .phrase .statement :: slots) (us ++ vs) := by
  have hnext : vs.headD k ≠ .elseWord := by
    intro heq
    have hfirst : vs.headD k ∈ Nonterminal.statement.first := h.headD_mem
    rw [heq] at hfirst
    exact Grammar.else_not_mem_first rfl hfirst
  exact (readable_of_made rfl hhead _ hnext).append h

theorem readable_ifOnly {hs : List TokenKind}
    (hhead : Made Tidy (Grammar.ifHead.filterMap Slot.atom?) hs) (hk : k ≠ .elseWord)
    (h : Readable k [.phrase .statement] us) : Readable k [.phrase .ifStmt] (hs ++ us) := by
  have hrow : Readable k ([Slot.phrase .statement] ++ [Slot.absent]) (us ++ []) := by
    refine Readable.append ?_ (.absent hk)
    exact h
  rw [List.append_nil] at hrow
  exact Readable.production Grammar.ifOnly_mem (readable_if hhead hrow)

/-- With an `else` as well, if one can come after the first branch. -/
theorem readable_ifElse {hs : List TokenKind}
    (hhead : Made Tidy (Grammar.ifHead.filterMap Slot.atom?) hs)
    (hbranch : Readable .elseWord [.phrase .statement] us)
    (hrest : Readable k [.phrase .statement] vs) :
    Readable k [.phrase .ifStmt] (hs ++ (us ++ .elseWord :: vs)) := by
  have helse : Readable k [.drop .elseWord, .phrase .statement] (.elseWord :: vs) :=
    Readable.append .drop hrest
  have hrow : Readable k ([Slot.phrase .statement] ++ [Slot.drop .elseWord, .phrase .statement])
      (us ++ .elseWord :: vs) := by
    refine Readable.append ?_ helse
    exact hbranch
  exact Readable.production Grammar.ifElse_mem (readable_if hhead hrow)

theorem makes_ifElse {hs : List TokenKind}
    (hhead : Made Tidy (Grammar.ifHead.filterMap Slot.atom?) hs)
    (hus : Makes [.phrase .statement] us) (hvs : Makes [.phrase .statement] vs) :
    Makes [.phrase .ifStmt] (hs ++ (us ++ .elseWord :: vs)) :=
  Makes.production Grammar.ifElse_mem ((makes_of_made hhead).append (hus.append (.token hvs)))

/-- An `if` with an `else`, if all shorter statements are tidy. -/
theorem of_ifElse (h : Made Tidy Grammar.ifElse.atoms ks)
    (hshort : ∀ vs, vs.length < ks.length → Makes [.phrase .statement] vs → Tidy .statement vs) :
    Tidy .ifStmt ks := by
  have hmade := Makes.production Grammar.ifElse_mem (makes_of_made h)
  have hatoms : Grammar.ifElse.atoms = Grammar.ifHead.filterMap Slot.atom? ++
      ([Atom.phrase .statement] ++ [Atom.token .elseWord, .phrase .statement]) := rfl
  rw [hatoms] at h
  obtain ⟨hs, _, rfl, hhead, h⟩ := h.of_append
  obtain ⟨us, _, rfl, hus, h⟩ := h.of_append
  have hus := hus.of_phrase
  cases h with
  | @token _ _ vs hvs =>
    have hvs := hvs.of_phrase
    have hlen : 0 < hs.length := by
      cases hhead with
      | token _ => exact Nat.succ_pos _
    -- with a first branch that goes on, the outer `if` has no `else`
    have hlonger : (∀ xs, Makes [.phrase .statement] xs →
        Makes [.phrase .statement] (us ++ .elseWord :: xs)) →
        Tidy .statement (us ++ .elseWord :: vs) := by
      intro hgoes
      refine hshort _ ?_ (hgoes vs hvs.made)
      simp only [List.length_append, List.length_cons]
      omega
    refine ⟨hmade, ?_, fun _ => ?_⟩
    · intro k hk
      rcases hus.goesOn rfl with hbranch | hgoes
      · exact readable_ifElse hhead hbranch (hvs.readable k hk)
      · exact readable_ifOnly hhead hk ((hlonger hgoes).readable k hk)
    · rcases hvs.goesOn rfl with hrest | hgoes
      · rcases hus.goesOn rfl with hbranch | hgoes
        · exact .inl (readable_ifElse hhead hbranch hrest)
        · right
          intro xs hxs
          have hboth := makes_ifElse hhead (hlonger hgoes).made hxs
          simpa only [List.append_assoc, List.cons_append] using hboth
      · right
        intro xs hxs
        have hboth := makes_ifElse hhead hus.made (hgoes xs hxs)
        simpa only [List.append_assoc, List.cons_append] using hboth

/-- **What the productions make is tidy.** -/
theorem of_makes (bound : Nat) : ∀ n ks, ks.length ≤ bound → Makes [.phrase n] ks → Tidy n ks := by
  induction bound using Nat.strongRecOn with
  | ind bound ih =>
    intro n ks hlen hmakes
    -- along the productions, for all rows within the bound
    have hmade := hmakes.made (P := fun n ks => ks.length ≤ bound → Tidy n ks) ?_
    · exact hmade.of_phrase hlen
    · intro p hp ks h hlen
      have htidy : Made Tidy p.atoms ks := h.mono fun n us hus hn => hn (by omega)
      by_cases hne : p = Grammar.ifElse
      · subst hne
        refine of_ifElse htidy fun vs hvs hmakes => ?_
        exact ih vs.length (by omega) .statement vs (Nat.le_refl _) hmakes
      · exact of_production hp hne htidy

end Tidy

theorem Makes.readable (h : Makes [.phrase .program] ks) :
    Readable .endOfText [.phrase .program] ks :=
  (Tidy.of_makes ks.length .program ks (Nat.le_refl _) h).readable .endOfText (by decide)

/-- **Every sentence is read as a program**, whatever its lexemes are. -/
theorem IsSentence.readable (h : IsSentence ks) : Readable .endOfText [.phrase .program] ks :=
  h.makes.readable

/-- **What the productions make of a program is a sentence.** -/
theorem isSentence_iff_makes : IsSentence ks ↔ Makes [.phrase .program] ks := by
  constructor
  · exact IsSentence.makes
  · intro h
    obtain ⟨ts, hts⟩ := h.readable _ (Lexeme.map_kind_ofKinds ks)
    obtain ⟨inner, hu, d, hd, -⟩ := hts.exists_derivation
    obtain rfl := hu.eq_of_plain (by decide)
    exact ⟨d, by rw [hd, Lexeme.map_kind_ofKinds]⟩

end LoxForms
