import LoxForms.Proofs.Grammar.Unfolding
/-!
# Sentences

A row of token kinds is a sentence if the rules make a program of lexemes of
these kinds, whichever `if` an `else` belongs to. `Makes` says the same of the
productions, which are easier to follow: what symbols make, one after the other
and without regard to what comes next. `Derivation.makes` leads from the rules
to the productions.
-/

namespace LoxForms

/-- A row of kinds that the rules make a program of. -/
def IsSentence (ks : List TokenKind) : Prop :=
  ∃ d : Derivation [.phrase .program], d.word.map Lexeme.kind = ks

/-- A row of kinds that a sentence begins with. -/
def IsViable (ks : List TokenKind) : Prop := ∃ more, IsSentence (ks ++ more)

/-- What symbols make by the productions. -/
inductive Makes : List Atom → List TokenKind → Prop
  | done : Makes [] []
  | token {k : TokenKind} {as : List Atom} {ks : List TokenKind} :
      Makes as ks → Makes (.token k :: as) (k :: ks)
  | phrase {p : Production} {as : List Atom} {us ks : List TokenKind} :
      p ∈ Grammar.productions → Makes p.atoms us → Makes as ks →
      Makes (.phrase p.phrase :: as) (us ++ ks)

namespace Makes

variable {as bs : List Atom} {ks us vs : List TokenKind} {p : Production}

theorem append (h : Makes as us) (h' : Makes bs vs) : Makes (as ++ bs) (us ++ vs) := by
  induction h with
  | done => exact h'
  | token _ ih => exact token ih
  | phrase hp hin _ _ ih =>
    rw [List.append_assoc]
    exact phrase hp hin ih

theorem of_append (h : Makes (as ++ bs) ks) :
    ∃ us vs, ks = us ++ vs ∧ Makes as us ∧ Makes bs vs := by
  induction as generalizing ks with
  | nil => exact ⟨[], ks, rfl, done, h⟩
  | cons a as ih =>
    cases h with
    | token hrest =>
      obtain ⟨us, vs, rfl, hu, hv⟩ := ih hrest
      exact ⟨_ :: us, vs, rfl, token hu, hv⟩
    | @phrase p _ ws _ hp hin hrest =>
      obtain ⟨us, vs, rfl, hu, hv⟩ := ih hrest
      exact ⟨ws ++ us, vs, (List.append_assoc ..).symm, phrase hp hin hu, hv⟩

/-- What a production makes, its phrase does. -/
theorem production (hp : p ∈ Grammar.productions) (h : Makes p.atoms ks) :
    Makes [.phrase p.phrase] ks := by
  have hphrase := phrase hp h done
  rwa [List.append_nil] at hphrase

end Makes

/-! ## From the rules to the productions -/

namespace Makes

variable {slots inner : List Slot} {ks : List TokenKind}

/-- Rows of a repetition, one after the other, make what its phrase does. -/
theorem of_rows {list : Nonterminal} {rows chosen : List (List Slot)}
    (hrep : Grammar.Repeats list rows) (hc : ∀ row ∈ chosen, row ∈ rows) (hne : chosen ≠ [])
    (h : Makes (chosen.flatten.filterMap Slot.atom?) ks) : Makes [.phrase list] ks := by
  induction chosen using List.reverseRecOn generalizing ks with
  | nil => exact absurd rfl hne
  | append_singleton init row ih =>
    have hrow : row ∈ rows := hc row (by simp)
    rw [List.flatten_append, List.flatten_singleton, List.filterMap_append] at h
    obtain ⟨us, vs, rfl, hu, hv⟩ := h.of_append
    by_cases hinit : init = []
    · subst hinit
      cases hu
      have hp : (⟨list, row, .splice⟩ : Production) ∈ Grammar.productions :=
        Grammar.mem_productions_iff.mpr (.inr ⟨rows, hrep, rfl, row, hrow, .inl rfl⟩)
      exact production hp hv
    · have hp : (⟨list, .phrase list :: row, .splice⟩ : Production) ∈ Grammar.productions :=
        Grammar.mem_productions_iff.mpr (.inr ⟨rows, hrep, rfl, row, hrow, .inr rfl⟩)
      have hlist := ih (fun r hr => hc r (List.mem_append_left _ hr)) hinit hu
      exact production hp (hlist.append hv)

/-- What rows make in the place of repetitions, the phrases of these make. -/
theorem of_unfolds (hu : Unfolds slots inner) (h : Makes (inner.filterMap Slot.atom?) ks) :
    Makes (slots.filterMap Slot.atom?) ks := by
  induction hu generalizing ks with
  | done => exact h
  | @plain s slots inner _ _ ih =>
    have hsplit : Makes ([s].filterMap Slot.atom? ++ inner.filterMap Slot.atom?) ks := by
      rwa [← List.filterMap_append]
    obtain ⟨us, vs, rfl, hs, hv⟩ := hsplit.of_append
    have hboth := hs.append (ih hv)
    rwa [← List.filterMap_append] at hboth
  | rows chosen hr hc hne _ ih =>
    rw [List.filterMap_append] at h
    obtain ⟨us, vs, rfl, hs, hv⟩ := h.of_append
    exact (of_rows hr hc hne hs).append (ih hv)

end Makes

/-- **What a derivation reads, the productions make.** -/
theorem Derivation.makes {slots : List Slot} (d : Derivation slots) :
    Makes (slots.filterMap Slot.atom?) (d.word.map Lexeme.kind) := by
  induction d with
  | done => exact .done
  | keep l hl rest ih =>
    subst hl
    exact .token ih
  | drop l hl rest ih =>
    subst hl
    exact .token ih
  | absent rest ih => exact ih
  | @phrase n inner slots alternative ha hm parts rest ihp ih =>
    obtain ⟨form, hform, hu⟩ := exists_unfolds_of_matches (Grammar.regular_of_mem ha)
      (fun list rows hstar => ⟨n, alternative, ha, hstar⟩) hm
    have hp : (⟨n, form, alternative.shape⟩ : Production) ∈ Grammar.productions :=
      Grammar.mem_productions_iff.mpr (.inl ⟨alternative, ha, hform, rfl⟩)
    rw [word, List.map_append]
    exact .phrase hp (.of_unfolds hu ihp) ih

theorem IsSentence.makes {ks : List TokenKind} (h : IsSentence ks) :
    Makes [.phrase .program] ks := by
  obtain ⟨d, rfl⟩ := h
  exact d.makes

/-! ## Every symbol makes something -/

/-- A bound for how far phrases have to stand inside one another until only
tokens are left. -/
def Nonterminal.height : Nonterminal → Nat
  | primary | block | superclass | classDecl | varDecl | returnStmt | parameters
  | moreParameters | program => 1
  | callChain | function | statement | forInitializer => 2
  | unary | declaration | funDecl | methods => 3
  | factor | declarations | factorTail => 4
  | term | termTail => 5
  | comparison | comparisonTail => 6
  | equality | equalityTail => 7
  | logicAnd | andTail => 8
  | logicOr | orTail => 9
  | assignment => 10
  | expression => 11
  | exprStmt | forStmt | ifStmt | printStmt | whileStmt | arguments | moreArguments => 12

/-- Each phrase has a production with lower phrases only. -/
theorem Grammar.exists_lower (n : Nonterminal) : ∃ p ∈ productions, p.phrase = n ∧
    ∀ m, .phrase m ∈ p.atoms → m.height < n.height := by
  have all_lower : ∀ n ∈ Nonterminal.all, ∃ p ∈ productions.toList, p.phrase = n ∧
      ∀ m ∈ Nonterminal.all, .phrase m ∈ p.atoms → m.height < n.height := by decide +kernel
  obtain ⟨p, hp, hn, hlow⟩ := all_lower n n.mem_all
  exact ⟨p, Array.mem_toList_iff.mp hp, hn, fun m => hlow m m.mem_all⟩

namespace Makes

/-- Symbols of which each makes something make something together. -/
theorem exists_of_each {as : List Atom} (h : ∀ n, .phrase n ∈ as → ∃ us, Makes [.phrase n] us) :
    ∃ ks, Makes as ks := by
  induction as with
  | nil => exact ⟨[], done⟩
  | cons a as ih =>
    obtain ⟨ks, hks⟩ := ih fun n hn => h n (List.mem_cons_of_mem _ hn)
    cases a with
    | token k => exact ⟨k :: ks, token hks⟩
    | phrase n =>
      obtain ⟨us, hus⟩ := h n List.mem_cons_self
      exact ⟨us ++ ks, hus.append hks⟩

theorem exists_of_height (h : Nat) :
    ∀ n : Nonterminal, n.height < h → ∃ us, Makes [.phrase n] us := by
  induction h with
  | zero =>
    intro n hn
    omega
  | succ h ih =>
    intro n hn
    obtain ⟨p, hp, rfl, hlow⟩ := Grammar.exists_lower n
    have hparts : ∀ m, .phrase m ∈ p.atoms → ∃ us, Makes [.phrase m] us := by
      intro m hm
      have hlt := hlow m hm
      exact ih m (by omega)
    obtain ⟨us, hus⟩ := exists_of_each hparts
    exact ⟨us, production hp hus⟩

/-- **Whatever the symbols are, they make something.** -/
theorem exists_word (as : List Atom) : ∃ ks, Makes as ks :=
  exists_of_each fun n _ => exists_of_height (n.height + 1) n (Nat.lt_succ_self _)

end Makes

end LoxForms
