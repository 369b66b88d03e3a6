import LoxForms.Double.Numeral
import LoxForms.Proofs.Lexeme.Spelling
import Mathlib.Data.List.TakeDrop
/-!
# Numerals of digits

A text of digits, with perhaps a point in it and an exponent after it, denotes
the decimal that its digits make (`decimal?_eq`, `ofText?_eq`). So each lexeme of
a number denotes one (`ofText?_of_isNumber`).
-/

namespace LoxForms

namespace Double

variable {s whole fraction point rest : List Char} {c : Char}

/-! ## Characters -/

/-- The characters that a number is written with. -/
def isNumeral (c : Char) : Bool := c.isDigit || ['.', 'e', '+', '-'].contains c

theorem isNumeral_iff : isNumeral c ↔ c.isDigit ∨ c ∈ ['.', 'e', '+', '-'] := by
  rw [isNumeral, Bool.or_eq_true, List.contains_iff_mem]

theorem isNumeral_of_isDigit (h : c.isDigit) : isNumeral c := isNumeral_iff.mpr (.inl h)

theorem all_isNumeral (h : s.all Char.isDigit) : s.all isNumeral :=
  List.all_eq_true.mpr fun c hc => isNumeral_of_isDigit (List.all_eq_true.mp h c hc)

/-- The numbers of the digits are consecutive. -/
theorem digit_bounds (h : c.isDigit) : 48 ≤ c.toNat ∧ c.toNat ≤ 57 := by
  rw [Char.isDigit, Bool.and_eq_true, decide_eq_true_eq, decide_eq_true_eq] at h
  exact ⟨UInt32.le_iff_toNat_le.mp h.1, UInt32.le_iff_toNat_le.mp h.2⟩

theorem ne_of_isDigit {d : Char} (h : c.isDigit) (hd : d.isDigit = false) : c ≠ d := by
  rintro rfl
  exact absurd h (by simp [hd])

/-- A character of a number is read as it is. -/
theorem isNumeral_plain (h : isNumeral c) :
    plain c = c ∧ Text.isNarrowBlank c = false ∧ c ≠ '_' := by
  rcases isNumeral_iff.mp h with hdigit | hmem
  · obtain ⟨hlow, hhigh⟩ := digit_bounds hdigit
    refine ⟨?_, ?_, ne_of_isDigit hdigit (by decide)⟩
    · rw [plain, if_pos (by omega)]
    · have hspace : c ≠ ' ' := ne_of_isDigit hdigit (by decide)
      have hcontrol : ¬ (9 ≤ c.toNat ∧ c.toNat ≤ 13) := by omega
      simp only [Text.isNarrowBlank, hspace, decide_false, Bool.false_or, Bool.and_eq_false_iff,
        decide_eq_false_iff_not]
      omega
  · simp only [List.mem_cons, List.not_mem_nil, or_false] at hmem
    rcases hmem with rfl | rfl | rfl | rfl <;> decide

/-! ## Before the digits are looked at -/

theorem map_plain (h : s.all isNumeral) : s.map plain = s := by
  induction s with
  | nil => rfl
  | cons c s ih =>
    rw [List.all_cons, Bool.and_eq_true] at h
    rw [List.map_cons, (isNumeral_plain h.1).1, ih h.2]

theorem trimmed_eq (h : s.all isNumeral) : trimmed s = s := by
  have hdrop : ∀ u : List Char, u.all isNumeral → u.dropWhile Text.isNarrowBlank = u := by
    intro u hu
    cases u with
    | nil => rfl
    | cons c u =>
      rw [List.all_cons, Bool.and_eq_true] at hu
      exact List.dropWhile_cons_of_neg (by simp [(isNumeral_plain hu.1).2.1])
  rw [trimmed, hdrop s h, hdrop s.reverse (by rwa [List.all_reverse]), List.reverse_reverse]

theorem ungrouped?_eq (h : s.all isNumeral) (afterDigit : Bool) :
    ungrouped? afterDigit s = some s := by
  induction s generalizing afterDigit with
  | nil => rfl
  | cons c s ih =>
    rw [List.all_cons, Bool.and_eq_true] at h
    unfold ungrouped?
    split
    · rename_i heq
      exact absurd heq (by simp)
    · rename_i heq
      exact absurd (List.cons.inj heq).1 (isNumeral_plain h.1).2.2
    · rename_i heq
      obtain ⟨rfl, rfl⟩ := List.cons.inj heq
      rw [ih h.2, Option.map_some]

theorem sign_of_isDigit (h : c.isDigit) : sign (c :: s) = (false, c :: s) := by
  unfold sign
  split
  · rename_i heq
    exact absurd (List.cons.inj heq).1 (ne_of_isDigit h (by decide))
  · rename_i heq
    exact absurd (List.cons.inj heq).1 (ne_of_isDigit h (by decide))
  · rfl

theorem word?_of_isDigit (h : c.isDigit) (negative : Bool) : word? negative (c :: s) = none := by
  have hlower : c.toLower = c := by
    obtain ⟨-, hhigh⟩ := digit_bounds h
    have hupper : ¬ (c.val ≥ 'A'.val ∧ c.val ≤ 'Z'.val) := by
      rintro ⟨hlow, -⟩
      have hbound : 65 ≤ c.toNat := UInt32.le_iff_toNat_le.mp hlow
      omega
    exact dif_neg hupper
  unfold word?
  rw [List.map_cons, hlower]
  split
  · rename_i heq
    exact absurd (List.cons.inj heq).1 (ne_of_isDigit h (by decide))
  · rename_i heq
    exact absurd (List.cons.inj heq).1 (ne_of_isDigit h (by decide))
  · rename_i heq
    exact absurd (List.cons.inj heq).1 (ne_of_isDigit h (by decide))
  · rfl

/-- **What the digits denote is all that counts** in a text that begins with a
digit and has nothing in it but what numbers are written with. -/
theorem ofText?_eq (hc : c.isDigit) (hs : s.all isNumeral) :
    ofText? (.ofList (c :: s)) = (decimal? (c :: s)).map (Decimal.toDouble false) := by
  have hall : (c :: s).all isNumeral := by
    rw [List.all_cons, isNumeral_of_isDigit hc, hs]
    rfl
  rw [ofText?, String.toList_ofList, map_plain hall, trimmed_eq hall, ungrouped?_eq hall,
    Option.bind_eq_bind, Option.bind_some]
  simp only [sign_of_isDigit hc, word?_of_isDigit hc]
  rfl

/-! ## Digits -/

theorem span_isDigit (hs : s.all Char.isDigit) (hrest : ∀ c ∈ rest.head?, c.isDigit = false) :
    (s ++ rest).span Char.isDigit = (s, rest) := by
  have hdigits : ∀ c ∈ s, c.isDigit := List.all_eq_true.mp hs
  rw [List.span_eq_takeWhile_dropWhile, List.takeWhile_append_of_pos hdigits,
    List.dropWhile_append_of_pos hdigits]
  cases rest with
  | nil => rw [List.takeWhile_nil, List.dropWhile_nil, List.append_nil]
  | cons c rest =>
    have hc : ¬ c.isDigit := by simp [hrest c rfl]
    rw [List.takeWhile_cons_of_neg hc, List.dropWhile_cons_of_neg hc, List.append_nil]

/-- What stands between the digits before the point and the exponent. -/
def IsPoint (point fraction : List Char) : Prop :=
  (point = [] ∧ fraction = []) ∨ (point = '.' :: fraction ∧ fraction.all Char.isDigit)

/-- **A text of digits denotes what they make**, with the point wherever it
stands and whatever the exponent is. -/
theorem decimal?_eq (hne : whole ≠ []) (hwhole : whole.all Char.isDigit)
    (hpoint : IsPoint point fraction) :
    decimal? (whole ++ point) = some ⟨digitsValue (whole ++ fraction), 0 - fraction.length⟩ ∧
    ∀ rest, decimal? (whole ++ (point ++ 'e' :: rest)) = (exponent? rest).map fun exponent =>
      ⟨digitsValue (whole ++ fraction), exponent - fraction.length⟩ := by
  have hempty : whole.isEmpty = false := by
    cases whole with
    | nil => exact absurd rfl hne
    | cons => rfl
  have hletter : ∀ (rest : List Char), ∀ c ∈ ('e' :: rest).head?, c.isDigit = false := by
    intro rest c hc
    obtain rfl := Option.some.inj hc
    decide
  have hdot : ∀ (rest : List Char), ∀ c ∈ ('.' :: rest).head?, c.isDigit = false := by
    intro rest c hc
    obtain rfl := Option.some.inj hc
    decide
  have hnil : ∀ c ∈ ([] : List Char).head?, c.isDigit = false := by simp
  rcases hpoint with ⟨rfl, rfl⟩ | ⟨rfl, hfraction⟩
  · refine ⟨?_, fun rest => ?_⟩
    · have hspan := span_isDigit hwhole hnil
      rw [List.append_nil] at hspan
      simp only [decimal?, List.append_nil, hspan, hempty]
      rfl
    · rw [List.nil_append]
      simp only [decimal?, span_isDigit hwhole (hletter rest), hempty]
      rfl
  · refine ⟨?_, fun rest => ?_⟩
    · have hspan := span_isDigit hfraction hnil
      rw [List.append_nil] at hspan
      simp only [decimal?, span_isDigit hwhole (hdot fraction), hspan, hempty]
      rfl
    · rw [List.cons_append]
      simp only [decimal?, span_isDigit hwhole (hdot _), span_isDigit hfraction (hletter rest),
        hempty]
      rfl

/-- **A lexeme of a number denotes one.** -/
theorem ofText?_of_isNumber {t : String} (h : Lexeme.IsNumber t.toList) :
    ∃ x, ofText? t = some x := by
  obtain ⟨whole, hne, hwhole, ht⟩ := h
  obtain ⟨point, fraction, hpoint, hnumeral, htext⟩ : ∃ point fraction, IsPoint point fraction ∧
      point.all isNumeral ∧ t.toList = whole ++ point := by
    rcases ht with ht | ⟨part, -, hpart, ht⟩
    · exact ⟨[], [], .inl ⟨rfl, rfl⟩, rfl, by rw [ht, List.append_nil]⟩
    · refine ⟨'.' :: part, part, .inr ⟨rfl, hpart⟩, ?_, ht⟩
      rw [List.all_cons, all_isNumeral hpart]
      rfl
  obtain ⟨c, more, rfl⟩ := List.exists_cons_of_ne_nil hne
  rw [List.all_cons, Bool.and_eq_true] at hwhole
  have hall : (more ++ point).all isNumeral := by
    rw [List.all_append, all_isNumeral hwhole.2, hnumeral]
    rfl
  have hdigits : (c :: more).all Char.isDigit := by
    rw [List.all_cons, hwhole.1, hwhole.2]
    rfl
  have htexts : t = .ofList (c :: (more ++ point)) := by
    rw [← List.cons_append, ← htext, String.ofList_toList]
  have hread := ofText?_eq hwhole.1 hall
  rw [← List.cons_append, (decimal?_eq hne hdigits hpoint).1, Option.map_some, List.cons_append,
    ← htexts] at hread
  exact ⟨_, hread⟩

end Double

end LoxForms
