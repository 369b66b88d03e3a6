import LoxForms.Lexeme
import LoxForms.Tree
/-!
# Reading by productions

`Reads` is what an automaton can do: a row of symbols reads a word and becomes
trees, by the productions of the expanded grammar, before a lexeme of a given
kind. An optional part is not missing right before an `else`.
-/

namespace LoxForms

/-- The kind of the lexeme that comes first, or else of the one that comes
after all of these. -/
def upcoming (after : TokenKind) : List Lexeme → TokenKind
  | [] => after
  | l :: _ => l.kind

@[simp] theorem upcoming_nil (after : TokenKind) : upcoming after [] = after := rfl

@[simp] theorem upcoming_cons (after : TokenKind) (l : Lexeme) (w : List Lexeme) :
    upcoming after (l :: w) = l.kind := rfl

theorem upcoming_append (after : TokenKind) (u w : List Lexeme) :
    upcoming after (u ++ w) = upcoming (upcoming after w) u := by
  cases u <;> rfl

/-- The productions, one group after the other. -/
theorem Grammar.mem_productions {p : Production} : p ∈ productions ↔
    p ∈ declarationRules ∨ p ∈ statementRules ∨ p ∈ operatorRules ∨ p ∈ primaryRules := by
  simp only [productions, List.mem_toArray, List.mem_append, or_assoc]

theorem Grammar.mem_of_declarationRules {p : Production} (h : p ∈ declarationRules) :
    p ∈ productions :=
  mem_productions.mpr (.inl h)

theorem Grammar.mem_of_statementRules {p : Production} (h : p ∈ statementRules) :
    p ∈ productions :=
  mem_productions.mpr (.inr (.inl h))

/-- What a row of symbols reads before a lexeme of the kind `after`, and the
trees that it becomes. -/
inductive Reads : TokenKind → List Slot → List Lexeme → List (Tree Lexeme) → Prop
  | done {after : TokenKind} : Reads after [] [] []
  | keep {after k : TokenKind} {l : Lexeme} {slots : List Slot} {w : List Lexeme}
      {ts : List (Tree Lexeme)} :
      l.kind = k → Reads after slots w ts → Reads after (.keep k :: slots) (l :: w) (.leaf l :: ts)
  | drop {after k : TokenKind} {l : Lexeme} {slots : List Slot} {w : List Lexeme}
      {ts : List (Tree Lexeme)} :
      l.kind = k → Reads after slots w ts → Reads after (.drop k :: slots) (l :: w) ts
  | absent {after : TokenKind} {slots : List Slot} {w : List Lexeme} {ts : List (Tree Lexeme)} :
      upcoming after w ≠ .elseWord → Reads after slots w ts →
      Reads after (.absent :: slots) w (.absent :: ts)
  | phrase {after : TokenKind} {p : Production} {slots : List Slot} {u w : List Lexeme}
      {us ts : List (Tree Lexeme)} :
      p ∈ Grammar.productions → Reads (upcoming after w) p.slots u us → Reads after slots w ts →
      Reads after (.phrase p.phrase :: slots) (u ++ w) (p.shape.apply us ++ ts)

namespace Reads

variable {after : TokenKind} {slots more : List Slot} {u v w : List Lexeme}
variable {us vs ts : List (Tree Lexeme)}

theorem append (hu : Reads (upcoming after v) slots u us) (hv : Reads after more v vs) :
    Reads after (slots ++ more) (u ++ v) (us ++ vs) := by
  generalize hb : upcoming after v = before at hu
  induction hu with
  | done => exact hv
  | keep hl _ ih => exact keep hl (ih hb)
  | drop hl _ ih => exact drop hl (ih hb)
  | absent hn _ ih =>
    subst hb
    exact absent (by rwa [upcoming_append]) (ih rfl)
  | phrase hp hin _ _ ih =>
    subst hb
    rw [List.append_assoc, List.append_assoc]
    exact phrase hp (by rwa [upcoming_append]) (ih rfl)

/-- What two rows read side by side, each of them reads for itself. -/
theorem of_append (h : Reads after (slots ++ more) w ts) :
    ∃ u v us vs, w = u ++ v ∧ ts = us ++ vs ∧
      Reads (upcoming after v) slots u us ∧ Reads after more v vs := by
  generalize hs : slots ++ more = all at h
  induction h generalizing slots with
  | done =>
    obtain ⟨rfl, rfl⟩ := List.append_eq_nil_iff.mp hs
    exact ⟨[], [], [], [], rfl, rfl, done, done⟩
  | keep hl hrest ih =>
    rcases List.append_eq_cons_iff.mp hs with ⟨rfl, rfl⟩ | ⟨rest, rfl, rfl⟩
    · exact ⟨[], _, [], _, rfl, rfl, done, keep hl hrest⟩
    · obtain ⟨u, v, us, vs, rfl, rfl, hu, hv⟩ := ih rfl
      exact ⟨_ :: u, v, _ :: us, vs, rfl, rfl, keep hl hu, hv⟩
  | drop hl hrest ih =>
    rcases List.append_eq_cons_iff.mp hs with ⟨rfl, rfl⟩ | ⟨rest, rfl, rfl⟩
    · exact ⟨[], _, [], _, rfl, rfl, done, drop hl hrest⟩
    · obtain ⟨u, v, us, vs, rfl, rfl, hu, hv⟩ := ih rfl
      exact ⟨_ :: u, v, us, vs, rfl, rfl, drop hl hu, hv⟩
  | absent hn hrest ih =>
    rcases List.append_eq_cons_iff.mp hs with ⟨rfl, rfl⟩ | ⟨rest, rfl, rfl⟩
    · exact ⟨[], _, [], _, rfl, rfl, done, absent hn hrest⟩
    · obtain ⟨u, v, us, vs, rfl, rfl, hu, hv⟩ := ih rfl
      exact ⟨u, v, _ :: us, vs, rfl, rfl, absent (by rwa [← upcoming_append]) hu, hv⟩
  | phrase hp hin hrest _ ih =>
    rcases List.append_eq_cons_iff.mp hs with ⟨rfl, rfl⟩ | ⟨rest, rfl, rfl⟩
    · exact ⟨[], _, [], _, rfl, rfl, done, phrase hp hin hrest⟩
    · obtain ⟨u, v, us, vs, rfl, rfl, hu, hv⟩ := ih rfl
      exact ⟨_ ++ u, v, _ ++ us, vs, (List.append_assoc ..).symm, (List.append_assoc ..).symm,
        phrase hp (by rwa [← upcoming_append]) hu, hv⟩

/-- A production reads as its phrase. -/
theorem production {p : Production} (hp : p ∈ Grammar.productions)
    (h : Reads after p.slots w ts) : Reads after [.phrase p.phrase] w (p.shape.apply ts) := by
  simpa only [List.append_nil] using phrase (w := []) hp h done

/-- **What a phrase reads, one of its productions reads.** -/
theorem of_phrase {n : Nonterminal} (h : Reads after [.phrase n] w ts) :
    ∃ p ∈ Grammar.productions, p.phrase = n ∧
      ∃ us, Reads after p.slots w us ∧ ts = p.shape.apply us := by
  generalize hs : [Slot.phrase n] = slots at h
  cases h with
  | @phrase _ p _ u _ us _ hp hin hrest =>
    obtain ⟨hn, rfl⟩ := List.cons.inj hs
    cases hrest
    rw [List.append_nil, List.append_nil]
    exact ⟨p, hp, (Slot.phrase.inj hn).symm, us, hin, rfl⟩
  | _ => exact nomatch hs

end Reads

end LoxForms
