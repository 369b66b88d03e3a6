import LoxForms.Proofs.Grammar.Derivation
import Mathlib.Data.List.Basic
import Mathlib.Data.List.Induction
/-!
# Repetitions

A repetition is one piece in the rules as they are written, and a phrase of its
own in the expanded grammar. `Unfolds` puts rows in the place of such phrases.
Row by row, what the productions read becomes a derivation
(`exists_derivation`), and a derivation is read by the productions
(`Derivation.reads`).
-/

namespace LoxForms

/-- A symbol that stands for no repetition. -/
def Slot.plain : Slot → Bool
  | phrase n => !(Grammar.written n).isEmpty
  | _ => true

namespace Grammar

/-- The rows that a phrase repeats, as the rules say where they first use it. -/
def rowsOf (list : Nonterminal) : List (List Slot) :=
  let pieces := Nonterminal.all.flatMap fun n => (written n).flatMap Alternative.pieces
  (pieces.findSome? fun piece => match piece with
    | .star other rows => if other = list then some rows else none
    | _ => none).getD []

end Grammar

/-- Whether a piece has no repetition inside, and repeats what the others with
its phrase do. -/
def Piece.regular : Piece → Bool
  | one choices => choices.all Slot.plain
  | optional slots => slots.all Slot.plain
  | star list rows =>
    rows.all (·.all Slot.plain) && (Grammar.written list).isEmpty && rows == Grammar.rowsOf list

theorem Grammar.regular_of_mem {n : Nonterminal} {alternative : Alternative}
    (ha : alternative ∈ written n) : ∀ piece ∈ alternative.pieces, piece.regular := by
  have all_regular : ∀ n ∈ Nonterminal.all, ∀ alternative ∈ written n,
      ∀ piece ∈ alternative.pieces, piece.regular := by decide +kernel
  exact all_regular n n.mem_all alternative ha

theorem Grammar.Repeats.regular {list : Nonterminal} {rows : List (List Slot)}
    (h : Repeats list rows) : (Piece.star list rows).regular := by
  obtain ⟨n, alternative, ha, hp⟩ := h
  exact regular_of_mem ha _ hp

theorem Piece.regular_star {list : Nonterminal} {rows : List (List Slot)} :
    (star list rows).regular ↔
      (∀ row ∈ rows, row.all Slot.plain) ∧ Grammar.written list = [] ∧
        rows = Grammar.rowsOf list := by
  simp only [regular, Bool.and_eq_true, List.all_eq_true, List.isEmpty_iff, beq_iff_eq, and_assoc]

/-- A row of symbols, and the same row with the phrases for repetitions
replaced by the rows that they repeat. -/
inductive Unfolds : List Slot → List Slot → Prop
  | done : Unfolds [] []
  | plain {s : Slot} {slots inner : List Slot} :
      s.plain → Unfolds slots inner → Unfolds (s :: slots) (s :: inner)
  | rows {list : Nonterminal} {rows : List (List Slot)} (chosen : List (List Slot))
      {slots inner : List Slot} :
      Grammar.Repeats list rows → (∀ row ∈ chosen, row ∈ rows) → chosen ≠ [] →
      Unfolds slots inner → Unfolds (.phrase list :: slots) (chosen.flatten ++ inner)

namespace Unfolds

variable {slots more inner : List Slot}

theorem append {inner' : List Slot} (h : Unfolds slots inner) (h' : Unfolds more inner') :
    Unfolds (slots ++ more) (inner ++ inner') := by
  induction h with
  | done => exact h'
  | plain hs _ ih => exact plain hs ih
  | rows chosen hr hc hne _ ih => rw [List.append_assoc]; exact rows chosen hr hc hne ih

theorem of_append (h : Unfolds (slots ++ more) inner) :
    ∃ left right, inner = left ++ right ∧ Unfolds slots left ∧ Unfolds more right := by
  induction slots generalizing inner with
  | nil => exact ⟨[], inner, rfl, done, h⟩
  | cons s slots ih =>
    cases h with
    | plain hs hrest =>
      obtain ⟨left, right, rfl, hl, hr⟩ := ih hrest
      exact ⟨s :: left, right, rfl, plain hs hl, hr⟩
    | rows chosen hr hc hne hrest =>
      obtain ⟨left, right, rfl, hl, hr'⟩ := ih hrest
      exact ⟨chosen.flatten ++ left, right, (List.append_assoc ..).symm,
        rows chosen hr hc hne hl, hr'⟩

/-- A row without repetitions stays as it is. -/
theorem refl (h : slots.all Slot.plain) : Unfolds slots slots := by
  induction slots with
  | nil => exact done
  | cons s slots ih =>
    rw [List.all_cons, Bool.and_eq_true] at h
    exact plain h.1 (ih h.2)

theorem eq_of_plain (hs : slots.all Slot.plain) (h : Unfolds slots inner) : inner = slots := by
  induction h with
  | done => rfl
  | plain _ _ ih =>
    rw [List.all_cons, Bool.and_eq_true] at hs
    rw [ih hs.2]
  | rows _ hr _ _ _ _ =>
    rw [List.all_cons, Bool.and_eq_true, Slot.plain, (Piece.regular_star.mp hr.regular).2.1] at hs
    exact absurd hs.1 (by simp)

/-- The phrase of a repetition unfolds to one row of it or more. -/
theorem of_list {list : Nonterminal} {rows : List (List Slot)}
    (hstar : (Piece.star list rows).regular) (h : Unfolds (.phrase list :: slots) inner) :
    ∃ chosen : List (List Slot), ∃ rest, inner = chosen.flatten ++ rest ∧ (∀ row ∈ chosen, row ∈ rows) ∧
      Unfolds slots rest := by
  obtain ⟨-, hw, hrows⟩ := Piece.regular_star.mp hstar
  cases h with
  | plain hs _ => rw [Slot.plain, hw] at hs; exact absurd hs (by simp)
  | rows chosen hr hc _ hrest =>
    rw [(Piece.regular_star.mp hr.regular).2.2, ← hrows] at hc
    exact ⟨chosen, _, rfl, hc, hrest⟩

end Unfolds

/-! ## The forms of a right side, unfolded -/

section

variable {pieces : List Piece} {slots inner : List Slot}

/-- **Unfolding a form of a right side gives one that the rule allows.** -/
theorem matches_of_unfolds (hreg : ∀ piece ∈ pieces, piece.regular)
    (hs : slots ∈ expandAll pieces) (h : Unfolds slots inner) : Matches pieces inner := by
  induction pieces generalizing slots inner with
  | nil =>
    obtain rfl := List.mem_singleton.mp hs
    cases h
    exact .nil
  | cons piece pieces ih =>
    simp only [expandAll, List.mem_flatMap, List.mem_map] at hs
    obtain ⟨front, hf, rest, hr, rfl⟩ := hs
    obtain ⟨left, right, rfl, hl, hright⟩ := h.of_append
    refine .cons ?_ (ih (fun q hq => hreg q (List.mem_cons_of_mem _ hq)) hr hright)
    have hpiece := hreg piece List.mem_cons_self
    cases piece with
    | one choices =>
      obtain ⟨s, hsc, rfl⟩ := List.mem_map.mp hf
      have hplain : s.plain := List.all_eq_true.mp hpiece s hsc
      rw [hl.eq_of_plain (by simpa using hplain)]
      exact .one hsc
    | optional some =>
      rcases List.mem_pair.mp hf with rfl | rfl
      · rw [hl.eq_of_plain hpiece]
        exact .present
      · rw [hl.eq_of_plain rfl]
        exact .absent
    | star list rows =>
      rcases List.mem_pair.mp hf with rfl | rfl
      · obtain ⟨chosen, rest, rfl, hc, hrest⟩ := hl.of_list hpiece
        cases hrest
        rw [List.append_nil]
        exact .star hc
      · cases hl
        rw [← List.flatten_nil]
        exact .star (by simp)

/-- **What a rule allows is a form of its right side, unfolded.** -/
theorem exists_unfolds_of_matches (hreg : ∀ piece ∈ pieces, piece.regular)
    (hrep : ∀ list rows, Piece.star list rows ∈ pieces → Grammar.Repeats list rows)
    (h : Matches pieces inner) : ∃ slots ∈ expandAll pieces, Unfolds slots inner := by
  induction h with
  | nil => exact ⟨[], by simp [expandAll], .done⟩
  | @cons piece pieces front rest hfront _ ih =>
    obtain ⟨slots, hs, hu⟩ := ih (fun q hq => hreg q (List.mem_cons_of_mem _ hq))
      (fun list rows hm => hrep list rows (List.mem_cons_of_mem _ hm))
    have hpiece := hreg piece List.mem_cons_self
    have ⟨expanded, he, hue⟩ : ∃ expanded ∈ piece.expand, Unfolds expanded front := by
      cases hfront with
      | @one choices s hsc =>
        have hplain : s.plain := List.all_eq_true.mp hpiece s hsc
        exact ⟨[s], List.mem_map.mpr ⟨s, hsc, rfl⟩, .refl (by simpa using hplain)⟩
      | present => exact ⟨_, List.mem_pair.mpr (.inl rfl), .refl hpiece⟩
      | absent => exact ⟨_, List.mem_pair.mpr (.inr rfl), .refl rfl⟩
      | @star list rows chosen hc =>
        rcases List.eq_nil_or_concat chosen with rfl | ⟨init, last, rfl⟩
        · exact ⟨[], List.mem_pair.mpr (.inr rfl), .done⟩
        · have hfold := Unfolds.rows (init ++ [last]) (hrep list rows List.mem_cons_self)
            (by simpa using hc) (by simp) .done
          exact ⟨[.phrase list], List.mem_pair.mpr (.inl rfl), by simpa using hfold⟩
    refine ⟨expanded ++ slots, ?_, hue.append hu⟩
    simp only [expandAll, List.mem_flatMap, List.mem_map]
    exact ⟨expanded, he, slots, hs, rfl⟩

end

/-! ## From productions to derivations -/

theorem Alternative.apply_shape (alternative : Alternative) (ts : List (Tree Lexeme)) :
    alternative.shape.apply ts = [alternative.tree ts] := by
  unfold Alternative.shape Alternative.tree
  cases alternative.transparent with
  | false => rfl
  | true => match ts with
    | [] | [_] | _ :: _ :: _ => rfl

/-- What becomes of a form of an alternative, unfolded. -/
theorem Grammar.matches_of_mem {n : Nonterminal} {alternative : Alternative}
    {slots inner : List Slot} (ha : alternative ∈ written n)
    (hs : slots ∈ expandAll alternative.pieces) (h : Unfolds slots inner) :
    Matches alternative.pieces inner :=
  matches_of_unfolds (regular_of_mem ha) hs h

/-- A row of a repetition unfolds to one or more of its rows, whether it is the first of
them or comes after others. -/
theorem Unfolds.of_repeats {list : Nonterminal} {rows : List (List Slot)}
    {row slots inner : List Slot} (hrep : Grammar.Repeats list rows) (hrow : row ∈ rows)
    (hs : slots = row ∨ slots = .phrase list :: row) (h : Unfolds slots inner) :
    ∃ chosen : List (List Slot), chosen ≠ [] ∧ (∀ r ∈ chosen, r ∈ rows) ∧
      inner = chosen.flatten := by
  have hplain := (Piece.regular_star.mp hrep.regular).1 row hrow
  rcases hs with rfl | rfl
  · refine ⟨[slots], by simp, by simpa using hrow, ?_⟩
    rw [h.eq_of_plain hplain, List.flatten_singleton]
  · obtain ⟨chosen, rest, rfl, hc, hrest⟩ := h.of_list hrep.regular
    refine ⟨chosen ++ [row], by simp, ?_, ?_⟩
    · simpa [or_imp, forall_and] using ⟨hc, hrow⟩
    · rw [hrest.eq_of_plain hplain, List.flatten_append, List.flatten_singleton]

/-- **What the productions read has a derivation.** -/
theorem Reads.exists_derivation {after : TokenKind} {slots : List Slot} {w : List Lexeme}
    {ts : List (Tree Lexeme)} (h : Reads after slots w ts) :
    ∃ inner, Unfolds slots inner ∧
      ∃ d : Derivation inner, d.word = w ∧ d.trees = ts ∧ d.NearestElse after := by
  induction h with
  | done => exact ⟨[], .done, .done, rfl, rfl, trivial⟩
  | keep hl _ ih =>
    obtain ⟨inner, hu, d, rfl, rfl, hd⟩ := ih
    exact ⟨_, .plain rfl hu, .keep _ hl d, rfl, rfl, hd⟩
  | drop hl _ ih =>
    obtain ⟨inner, hu, d, rfl, rfl, hd⟩ := ih
    exact ⟨_, .plain rfl hu, .drop _ hl d, rfl, rfl, hd⟩
  | absent hn _ ih =>
    obtain ⟨inner, hu, d, rfl, rfl, hd⟩ := ih
    exact ⟨_, .plain rfl hu, .absent d, rfl, rfl, hn, hd⟩
  | @phrase _ p slots _ _ _ _ hp _ _ ihin ih =>
    obtain ⟨inner, hu, d, rfl, rfl, hd⟩ := ih
    obtain ⟨parts, hparts, e, rfl, rfl, he⟩ := ihin
    rcases Grammar.mem_productions_iff.mp hp with
      ⟨alternative, ha, hs, hshape⟩ | ⟨rows, hrep, hshape, row, hrow, hs⟩
    · have hm := Grammar.matches_of_mem ha hs hparts
      refine ⟨.phrase p.phrase :: inner, .plain ?_ hu, .phrase alternative ha hm e d,
        rfl, ?_, he, hd⟩
      · cases hw : Grammar.written p.phrase with
        | nil => rw [hw] at ha; exact absurd ha (by simp)
        | cons => simp [Slot.plain, hw]
      · rw [hshape, alternative.apply_shape]
        rfl
    · -- a row of a repetition stays beside what follows it
      obtain ⟨chosen, hne, hc, rfl⟩ := hparts.of_repeats hrep hrow hs
      refine ⟨_, .rows chosen hrep hc hne hu, e.append d, e.word_append d, ?_, ?_⟩
      · rw [e.trees_append, hshape]
        rfl
      · exact (e.nearestElse_append d).mpr ⟨he, hd⟩

/-! ## From derivations to productions -/

namespace Reads

variable {after : TokenKind} {slots inner : List Slot} {w : List Lexeme}
variable {ts : List (Tree Lexeme)}

/-- Rows of a repetition, one after the other, read as its phrase. -/
theorem of_rows {list : Nonterminal} {rows chosen : List (List Slot)}
    (hrep : Grammar.Repeats list rows) (hc : ∀ row ∈ chosen, row ∈ rows) (hne : chosen ≠ [])
    (h : Reads after chosen.flatten w ts) : Reads after [.phrase list] w ts := by
  induction chosen using List.reverseRecOn generalizing after w ts with
  | nil => exact absurd rfl hne
  | append_singleton init row ih =>
    have hrow : row ∈ rows := hc row (by simp)
    rw [List.flatten_append, List.flatten_singleton] at h
    by_cases hinit : init = []
    · subst hinit
      have hp : (⟨list, row, .splice⟩ : Production) ∈ Grammar.productions :=
        Grammar.mem_productions_iff.mpr (.inr ⟨rows, hrep, rfl, row, hrow, .inl rfl⟩)
      exact production hp h
    · have hp : (⟨list, .phrase list :: row, .splice⟩ : Production) ∈ Grammar.productions :=
        Grammar.mem_productions_iff.mpr (.inr ⟨rows, hrep, rfl, row, hrow, .inr rfl⟩)
      obtain ⟨u, v, us, vs, rfl, rfl, hu, hv⟩ := h.of_append
      have hlist := ih (fun r hr => hc r (List.mem_append_left _ hr)) hinit hu
      exact production hp (hlist.append hv)

/-- What rows read in the place of repetitions, the phrases of these read. -/
theorem of_unfolds (hu : Unfolds slots inner) (h : Reads after inner w ts) :
    Reads after slots w ts := by
  induction hu generalizing w ts with
  | done => exact h
  | @plain s slots inner _ _ ih =>
    have hsplit : Reads after ([s] ++ inner) w ts := h
    obtain ⟨u, v, us, vs, rfl, rfl, hs, hv⟩ := hsplit.of_append
    exact append hs (ih hv)
  | rows chosen hr hc hne _ ih =>
    obtain ⟨u, v, us, vs, rfl, rfl, hs, hv⟩ := h.of_append
    exact append (of_rows hr hc hne hs) (ih hv)

end Reads

/-- **A derivation is read by the productions.** -/
theorem Derivation.reads {after : TokenKind} {slots : List Slot} (d : Derivation slots)
    (h : d.NearestElse after) : Reads after slots d.word d.trees := by
  induction d generalizing after with
  | done => exact .done
  | keep l hl rest ih => exact .keep hl (ih h)
  | drop l hl rest ih => exact .drop hl (ih h)
  | absent rest ih => exact .absent h.1 (ih h.2)
  | @phrase n inner slots alternative ha hm parts rest ihp ih =>
    obtain ⟨form, hform, hu⟩ := exists_unfolds_of_matches (Grammar.regular_of_mem ha)
      (fun list rows hstar => ⟨n, alternative, ha, hstar⟩) hm
    have hp : (⟨n, form, alternative.shape⟩ : Production) ∈ Grammar.productions :=
      Grammar.mem_productions_iff.mpr (.inl ⟨alternative, ha, hform, rfl⟩)
    have hphrase := Reads.phrase hp (.of_unfolds hu (ihp h.1)) (ih h.2)
    rwa [alternative.apply_shape] at hphrase

end LoxForms
