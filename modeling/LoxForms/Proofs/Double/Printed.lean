import LoxForms.Double.Layout
import LoxForms.Proofs.Double.Numerals
import LoxForms.Proofs.Double.Ranks
import Mathlib.Data.List.TakeWhile
/-!
# Numbers are told by their texts

However the digits of a decimal are laid out, the text reads as a decimal of the
same value (`decimal?_decimalText`). As a magnitude is nearest to its shortest
decimal, each finite number can be read off its text (`ofChars_text`), and two
of them never have one text.
-/

namespace LoxForms

namespace Double

variable {s digits whole fraction point rest : List Char} {d : Decimal} {n : Nat}

/-! ## The value of digits -/

theorem digitsValue_append (ds es : List Char) :
    digitsValue (ds ++ es) = digitsValue ds * Nat.pow 10 es.length + digitsValue es := by
  change Nat.ofDigitChars 10 (ds ++ es) 0 = _
  rw [Nat.ofDigitChars_append, Nat.ofDigitChars_eq_ofDigitChars_zero, Nat.mul_comm]
  rfl

theorem digitsValue_zeros (n : Nat) : digitsValue (List.replicate n '0') = 0 := by
  change Nat.ofDigitChars 10 _ 0 = _
  rw [Nat.ofDigitChars_replicate_zero, Nat.mul_zero]

theorem digitsValue_toDigits (n : Nat) : digitsValue (Nat.toDigits 10 n) = n :=
  Nat.ofDigitChars_ten_toDigits

theorem all_isDigit_toDigits (n : Nat) : (Nat.toDigits 10 n).all Char.isDigit :=
  List.all_eq_true.mpr fun _ hc => Nat.isDigit_of_mem_toDigits (by decide) (by decide) hc

theorem all_isDigit_zeros (n : Nat) : (List.replicate n '0').all Char.isDigit := by
  rw [List.all_replicate]
  cases n <;> rfl

/-! ## Texts of a decimal -/

/-- A text that begins with a digit, has nothing in it but what numbers are
written with, and reads as a decimal. -/
structure Reads (s : List Char) (d : Decimal) : Prop where
  digit : ∃ c rest, s = c :: rest ∧ c.isDigit
  numeral : s.all isNumeral
  decimal : decimal? s = some d

theorem IsPoint.numeral (h : IsPoint point fraction) : point.all isNumeral := by
  rcases h with ⟨rfl, -⟩ | ⟨rfl, hfraction⟩
  · rfl
  · rw [List.all_cons, all_isNumeral hfraction]
    rfl

theorem digit_append (hne : whole ≠ []) (hwhole : whole.all Char.isDigit) :
    ∃ c rest, whole ++ s = c :: rest ∧ c.isDigit := by
  obtain ⟨c, more, rfl⟩ := List.exists_cons_of_ne_nil hne
  rw [List.all_cons, Bool.and_eq_true] at hwhole
  exact ⟨c, more ++ s, rfl, hwhole.1⟩

theorem Reads.of_point (hne : whole ≠ []) (hwhole : whole.all Char.isDigit)
    (hpoint : IsPoint point fraction) :
    Reads (whole ++ point) ⟨digitsValue (whole ++ fraction), 0 - fraction.length⟩ where
  digit := digit_append hne hwhole
  numeral := by
    rw [List.all_append, all_isNumeral hwhole, hpoint.numeral]
    rfl
  decimal := (decimal?_eq hne hwhole hpoint).1

theorem Reads.of_exponent (hne : whole ≠ []) (hwhole : whole.all Char.isDigit)
    (hpoint : IsPoint point fraction) (hrest : rest.all isNumeral) {exponent : Int}
    (h : exponent? rest = some exponent) :
    Reads (whole ++ (point ++ 'e' :: rest))
      ⟨digitsValue (whole ++ fraction), exponent - fraction.length⟩ where
  digit := digit_append hne hwhole
  numeral := by
    rw [List.all_append, List.all_append, List.all_cons, all_isNumeral hwhole, hpoint.numeral,
      hrest]
    rfl
  decimal := by rw [(decimal?_eq hne hwhole hpoint).2, h, Option.map_some]

/-! ## The two layouts -/

/-- **Digits with a point in place** read as what they make, times a power of ten
for the zeros that are put at the end. -/
theorem reads_positional (hne : digits ≠ []) (hdigits : digits.all Char.isDigit) (place : Int) :
    ∃ a : Nat, Reads (positional digits place)
      ⟨digitsValue digits * Nat.pow 10 a, place - digits.length - a⟩ := by
  unfold positional
  split
  · rename_i hplace
    refine ⟨0, ?_⟩
    have hfraction : (List.replicate (-place).toNat '0' ++ digits).all Char.isDigit := by
      rw [List.all_append, all_isDigit_zeros, hdigits]
      rfl
    have hreads := Reads.of_point (show ['0'] ≠ [] by simp) rfl (.inr ⟨rfl, hfraction⟩)
    have hvalue : digitsValue (['0'] ++ (List.replicate (-place).toNat '0' ++ digits)) =
        digitsValue digits * Nat.pow 10 0 := by
      rw [digitsValue_append, digitsValue_append, digitsValue_zeros,
        show digitsValue ['0'] = 0 from rfl, Nat.zero_mul, Nat.zero_mul, Nat.zero_add, Nat.zero_add]
      exact (Nat.mul_one _).symm
    have hexponent : (0 : Int) - (List.replicate (-place).toNat '0' ++ digits).length =
        place - digits.length - (0 : Nat) := by
      rw [List.length_append, List.length_replicate]
      omega
    rwa [hvalue, hexponent] at hreads
  · rename_i hplace
    split
    · rename_i hlong
      refine ⟨place.toNat - digits.length + 1, ?_⟩
      have hwhole : (digits ++ List.replicate (place.toNat - digits.length) '0').all
          Char.isDigit := by
        rw [List.all_append, all_isDigit_zeros, hdigits]
        rfl
      have hpoint : IsPoint ['.', '0'] ['0'] := .inr ⟨rfl, rfl⟩
      have hreads := Reads.of_point (by simp [hne]) hwhole hpoint
      have hvalue : digitsValue
          (digits ++ List.replicate (place.toNat - digits.length) '0' ++ ['0']) =
            digitsValue digits * Nat.pow 10 (place.toNat - digits.length + 1) := by
        rw [List.append_assoc, digitsValue_append, ← List.replicate_succ', digitsValue_zeros,
          List.length_replicate, Nat.add_zero]
      have hexponent : (0 : Int) - ['0'].length =
          place - digits.length - (place.toNat - digits.length + 1 : Nat) := by
        rw [List.length_singleton]
        omega
      rwa [hvalue, hexponent] at hreads
    · rename_i hlong
      refine ⟨0, ?_⟩
      rw [← List.take_append_drop place.toNat digits, List.all_append, Bool.and_eq_true] at hdigits
      have htake : digits.take place.toNat ≠ [] := by
        rw [ne_eq, List.take_eq_nil_iff, not_or]
        exact ⟨by omega, hne⟩
      have hreads := Reads.of_point htake hdigits.1 (.inr ⟨rfl, hdigits.2⟩)
      have hexponent : (0 : Int) - (digits.drop place.toNat).length =
          place - digits.length - (0 : Nat) := by
        rw [List.length_drop]
        omega
      rw [List.take_append_drop, hexponent] at hreads
      rwa [show Nat.pow 10 0 = 1 from rfl, Nat.mul_one]

/-- The exponent is read as it is. -/
theorem exponent?_eq (power : Int) (n : Nat) :
    exponent? ((if power < 0 then '-' else '+') ::
      (List.replicate n '0' ++ Nat.toDigits 10 power.natAbs)) = some power := by
  have hvalue : digitsValue (List.replicate n '0' ++ Nat.toDigits 10 power.natAbs) =
      power.natAbs := by
    rw [digitsValue_append, digitsValue_zeros, digitsValue_toDigits, Nat.zero_mul, Nat.zero_add]
  have hall : (List.replicate n '0' ++ Nat.toDigits 10 power.natAbs).all Char.isDigit := by
    rw [List.all_append, all_isDigit_zeros, all_isDigit_toDigits]
    rfl
  have hempty : (List.replicate n '0' ++ Nat.toDigits 10 power.natAbs).isEmpty = false := by
    rw [List.isEmpty_eq_false_iff, ne_eq, List.append_eq_nil_iff, not_and]
    exact fun _ => Nat.toDigits_ne_nil
  split
  · simp only [exponent?, sign, hvalue, hall, hempty]
    have hpower : -(power.natAbs : Int) = power := by omega
    exact congrArg some hpower
  · simp only [exponent?, sign, hvalue, hall, hempty]
    have hpower : (power.natAbs : Int) = power := by omega
    exact congrArg some hpower

/-- **Digits with an exponent** read as what they make. -/
theorem reads_scientific (hne : digits ≠ []) (hdigits : digits.all Char.isDigit) (power : Int) :
    Reads (scientific digits power) ⟨digitsValue digits, power + 1 - digits.length⟩ := by
  have hrest : ((if power < 0 then '-' else '+') :: (List.replicate
      (2 - (Nat.toDigits 10 power.natAbs).length) '0' ++ Nat.toDigits 10 power.natAbs)).all
        isNumeral := by
    rw [List.all_cons, List.all_append, all_isNumeral (all_isDigit_zeros _),
      all_isNumeral (all_isDigit_toDigits _)]
    split <;> rfl
  obtain ⟨c, more, rfl⟩ := List.exists_cons_of_ne_nil hne
  rw [List.all_cons, Bool.and_eq_true] at hdigits
  have hfirst : [c].all Char.isDigit := by rw [List.all_cons, hdigits.1]; rfl
  have hexponent : power - more.length = power + 1 - (c :: more).length := by
    rw [List.length_cons]
    omega
  rw [← hexponent]
  cases more with
  | nil =>
    have hpoint : IsPoint [] [] := .inl ⟨rfl, rfl⟩
    exact Reads.of_exponent (List.cons_ne_nil c []) hfirst hpoint hrest (exponent?_eq power _)
  | cons second others =>
    have hpoint : IsPoint ('.' :: second :: others) (second :: others) := .inr ⟨rfl, hdigits.2⟩
    exact Reads.of_exponent (List.cons_ne_nil c []) hfirst hpoint hrest (exponent?_eq power _)

/-! ## Decimals of one value -/

/-- To be the same number. -/
def Same (d d' : Decimal) : Prop := d.numerator * d'.denominator = d'.numerator * d.denominator

theorem denominator_pos (d : Decimal) : 0 < d.denominator := pow_pos_of_pos _ (by decide)

theorem nearestRank_same {d d' : Decimal} (h : Same d d') :
    nearestRank d.numerator d.denominator = nearestRank d'.numerator d'.denominator :=
  nearestRank_congr (denominator_pos d) (denominator_pos d') h

theorem same_of_scaled (n : Nat) {a b : Nat} {x y : Int} (h : a + x = b + y) :
    Same ⟨n * Nat.pow 10 a, x⟩ ⟨n * Nat.pow 10 b, y⟩ := by
  have hpowers : a + x.toNat + (-y).toNat = b + y.toNat + (-x).toNat := by omega
  have hmul : ∀ i j k, n * Nat.pow 10 i * Nat.pow 10 j * Nat.pow 10 k =
      n * Nat.pow 10 (i + j + k) := by
    intro i j k
    change n * 10 ^ i * 10 ^ j * 10 ^ k = n * 10 ^ (i + j + k)
    rw [Nat.pow_add, Nat.pow_add]
    ring
  unfold Same Decimal.numerator Decimal.denominator
  rw [hmul, hmul, hpowers]

/-- Digits are followed by zeros, if these are dropped. -/
theorem exists_zeros (digits : List Char) : ∃ z,
    digits = (digits.reverse.dropWhile (· = '0')).reverse ++ List.replicate z '0' := by
  refine ⟨(digits.reverse.takeWhile (· = '0')).length, ?_⟩
  have hzeros : digits.reverse.takeWhile (· = '0') =
      List.replicate (digits.reverse.takeWhile (· = '0')).length '0' := by
    rw [List.eq_replicate_iff]
    exact ⟨rfl, fun c hc => by simpa using List.mem_takeWhile_imp hc⟩
  calc digits = (digits.reverse.takeWhile (· = '0') ++
          digits.reverse.dropWhile (· = '0')).reverse := by
        rw [List.takeWhile_append_dropWhile, List.reverse_reverse]
    _ = (digits.reverse.dropWhile (· = '0')).reverse ++
          (digits.reverse.takeWhile (· = '0')).reverse := List.reverse_append
    _ = _ := by rw [← List.reverse_replicate, ← hzeros]

/-- **The text of a decimal reads as the same number.** -/
theorem reads_decimalText (h : d.digits ≠ 0) : ∃ d', Reads (decimalText d) d' ∧ Same d d' := by
  obtain ⟨z, hz⟩ := exists_zeros (Nat.toDigits 10 d.digits)
  have hall := all_isDigit_toDigits d.digits
  have hvalue := digitsValue_toDigits d.digits
  unfold decimalText
  dsimp only
  generalize hlength : ((Nat.toDigits 10 d.digits).length : Int) = length
  rw [hz, List.length_append, List.length_replicate] at hlength
  rw [hz, List.all_append, Bool.and_eq_true] at hall
  rw [hz, digitsValue_append, digitsValue_zeros, List.length_replicate, Nat.add_zero] at hvalue
  generalize ((Nat.toDigits 10 d.digits).reverse.dropWhile (· = '0')).reverse = significant
    at hlength hall hvalue ⊢
  have hne : significant ≠ [] := by
    rintro rfl
    exact h (by rw [← hvalue]; exact Nat.zero_mul _)
  have hd : d = ⟨digitsValue significant * Nat.pow 10 z, d.exponent⟩ := by rw [hvalue]
  split
  · obtain ⟨a, hreads⟩ := reads_positional hne hall.1 (length + d.exponent)
    refine ⟨_, hreads, ?_⟩
    rw [hd]
    exact same_of_scaled _ (by dsimp only; omega)
  · refine ⟨_, reads_scientific hne hall.1 _, ?_⟩
    have hsame : Same ⟨digitsValue significant * Nat.pow 10 z, d.exponent⟩
        ⟨digitsValue significant * Nat.pow 10 0,
          length + d.exponent - 1 + 1 - significant.length⟩ := same_of_scaled _ (by omega)
    rwa [← hd, show Nat.pow 10 0 = 1 from rfl, Nat.mul_one] at hsame

/-! ## Numbers -/

theorem nearestRank_zero (n : Nat) : nearestRank 0 n = 0 := by
  unfold nearestRank
  generalize Nat.pow 2 1074 = unit
  simp

/-- **The text of a magnitude reads as a decimal that it is nearest to.** -/
theorem reads_magnitudeText (rank : Nat) : ∃ d, Reads (magnitudeText rank) d ∧
    nearestRank d.numerator d.denominator = rank := by
  unfold magnitudeText
  split
  · rename_i hzero
    refine ⟨⟨0, -1⟩, ⟨⟨'0', _, rfl, rfl⟩, rfl, rfl⟩, ?_⟩
    rw [hzero]
    exact nearestRank_zero _
  · rename_i hzero
    have hdigits : (shortest rank).digits ≠ 0 := by
      intro h
      have hrank := nearestRank_shortest rank
      rw [Decimal.numerator, h, Nat.zero_mul, nearestRank_zero] at hrank
      exact hzero hrank.symm
    obtain ⟨d, hreads, hsame⟩ := reads_decimalText hdigits
    exact ⟨d, hreads, by rw [← nearestRank_same hsame, nearestRank_shortest]⟩

/-- The number that is nearest to what a text reads as. -/
def ofChars (s : List Char) : Double :=
  match decimal? (sign s).2 with
  | some d => ofRatio (sign s).1 d.numerator d.denominator
  | none => nan

theorem ofRank_fin (negative : Bool) (rank : Fin finiteMagnitudes) :
    ofRank negative rank = finite negative rank := dif_pos rank.isLt

theorem toList_text (negative : Bool) (rank : Fin finiteMagnitudes) :
    (text (finite negative rank)).toList =
      (if negative then ['-'] else []) ++ magnitudeText rank := String.toList_ofList

/-- **A finite number can be read off its text.** -/
theorem ofChars_text (negative : Bool) (rank : Fin finiteMagnitudes) :
    ofChars (text (finite negative rank)).toList = finite negative rank := by
  obtain ⟨d, hreads, hrank⟩ := reads_magnitudeText rank
  obtain ⟨c, rest, htext, hc⟩ := hreads.digit
  have hsign : sign ((if negative then ['-'] else []) ++ magnitudeText rank) =
      (negative, magnitudeText rank) := by
    cases negative with
    | false => rw [htext]; exact sign_of_isDigit hc
    | true => rfl
  rw [toList_text, ofChars, hsign]
  simp only [hreads.decimal]
  rw [ofRatio, hrank, ofRank_fin]

/-- The text of a finite number begins with a digit or a minus sign, and has
nothing in it but what numbers are written with. -/
theorem text_numeral (negative : Bool) (rank : Fin finiteMagnitudes) :
    (text (finite negative rank)).toList.all isNumeral ∧
      ∃ c rest, (text (finite negative rank)).toList = c :: rest ∧ (c.isDigit ∨ c = '-') := by
  obtain ⟨d, hreads, -⟩ := reads_magnitudeText rank
  obtain ⟨c, rest, htext, hc⟩ := hreads.digit
  rw [toList_text]
  cases negative with
  | false => exact ⟨hreads.numeral, c, rest, htext, .inl hc⟩
  | true => exact ⟨hreads.numeral, '-', _, rfl, .inr rfl⟩

end Double

end LoxForms
