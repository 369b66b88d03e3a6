import LoxForms.Double.Shortest
import Mathlib.Algebra.Order.Ring.Nat
import Mathlib.Tactic.Ring
/-!
# Decimals that read back

The rank that is nearest to a ratio is the same for every ratio of one value
(`nearestRank_congr`), and a magnitude is nearest to itself
(`nearestRank_units`). So whatever decimal is chosen to stand for a magnitude reads
back as that magnitude: `nearestRank_shortest`.
-/

namespace LoxForms

namespace Double

variable {a b c d : Nat}

/-! Powers with an exponent that is never computed. -/

theorem pow_pos_of_pos (n : Nat) (h : 0 < b) : 0 < Nat.pow b n := Nat.pow_pos h

theorem pow_ten (n : Nat) : Nat.pow 10 n = Nat.pow 2 n * Nat.pow 5 n := Nat.mul_pow 2 5 n

/-! ## Ratios of one value -/

theorem nearestRank_mul (a b : Nat) (hc : 0 < c) :
    nearestRank (a * c) (b * c) = nearestRank a b := by
  unfold nearestRank
  generalize Nat.pow 2 1074 = unit
  have hscaled : a * c * unit = a * unit * c := by ring
  have hstep : ∀ n, b * c * n = b * n * c := fun n => by ring
  have hmod : ∀ n, a * unit * c % (b * n * c) = a * unit % (b * n) * c :=
    fun n => Nat.mul_mod_mul_right c (a * unit) (b * n)
  have hexcess : ∀ n, 2 * (n * c) = 2 * n * c := fun n => by ring
  have hlt : ∀ m n, decide (m * c < n * c) = decide (m < n) :=
    fun m n => decide_eq_decide.mpr (Nat.mul_lt_mul_right hc)
  have heq : ∀ m n : Nat, (m * c == n * c) = (m == n) := by
    intro m n
    rw [Bool.eq_iff_iff, beq_iff_eq, beq_iff_eq, Nat.mul_left_inj (Nat.pos_iff_ne_zero.mp hc)]
  simp only [hscaled, hstep, Nat.mul_div_mul_right _ _ hc, hmod, hexcess, hlt, heq]

/-- **Ratios of one value have the same rank.** -/
theorem nearestRank_congr (hb : 0 < b) (hd : 0 < d) (h : a * d = c * b) :
    nearestRank a b = nearestRank c d := by
  calc nearestRank a b = nearestRank (a * d) (b * d) := (nearestRank_mul a b hd).symm
    _ = nearestRank (c * b) (d * b) := by rw [h, Nat.mul_comm b d]
    _ = nearestRank c d := nearestRank_mul c d hb

/-! ## Magnitudes -/

/-- A fraction of full width has the length of that width and of its exponent. -/
theorem log2_mul_pow {fraction : Nat} (h : fraction < Nat.pow 2 52) (e : Nat) :
    ((Nat.pow 2 52 + fraction) * Nat.pow 2 e).log2 = 52 + e := by
  have hlow : 2 ^ (52 + e) ≤ (Nat.pow 2 52 + fraction) * Nat.pow 2 e := by
    rw [Nat.pow_add]
    exact Nat.mul_le_mul_right _ (Nat.le_add_right _ _)
  have hhigh : (Nat.pow 2 52 + fraction) * Nat.pow 2 e < 2 ^ (52 + e + 1) := by
    have htwice : Nat.pow 2 52 + fraction < 2 ^ 53 := by
      have : Nat.pow 2 52 + Nat.pow 2 52 = 2 ^ 53 := by decide
      omega
    calc (Nat.pow 2 52 + fraction) * Nat.pow 2 e < 2 ^ 53 * Nat.pow 2 e :=
          Nat.mul_lt_mul_of_pos_right htwice (Nat.pow_pos (by decide))
      _ = 2 ^ (52 + e + 1) := by
        show 2 ^ 53 * 2 ^ e = _
        rw [← Nat.pow_add]
        congr 1
        omega
  have hne : (Nat.pow 2 52 + fraction) * Nat.pow 2 e ≠ 0 := by
    have hpos : 0 < 2 ^ (52 + e) := Nat.pow_pos (by decide)
    omega
  exact (Nat.log2_eq_iff hne).mpr ⟨hlow, hhigh⟩

/-- Each magnitude is a whole number of steps, and its exponent tells how wide
these are. -/
theorem units_eq (rank : Nat) : ∃ m e, units rank = m * Nat.pow 2 e ∧
    rank = e * Nat.pow 2 52 + m ∧ (units rank).log2 - 52 = e := by
  unfold units
  by_cases hlow : rank < Nat.pow 2 52
  · rw [if_pos hlow]
    refine ⟨rank, 0, (Nat.mul_one rank).symm, by rw [Nat.zero_mul, Nat.zero_add], ?_⟩
    by_cases hzero : rank = 0
    · rw [hzero]
      rfl
    · have hlog : rank.log2 < 52 := (Nat.log2_lt hzero).mpr hlow
      omega
  · rw [if_neg hlow]
    have hrank := Nat.div_add_mod rank (Nat.pow 2 52)
    have hfraction := Nat.mod_lt rank (show 0 < Nat.pow 2 52 by decide)
    have hexponent : 0 < rank / Nat.pow 2 52 := Nat.div_pos (Nat.le_of_not_lt hlow) (by decide)
    obtain ⟨e, he⟩ := Nat.exists_eq_succ_of_ne_zero (Nat.pos_iff_ne_zero.mp hexponent)
    generalize rank % Nat.pow 2 52 = fraction at hrank hfraction ⊢
    rw [he] at hrank ⊢
    refine ⟨Nat.pow 2 52 + fraction, e, by rw [Nat.succ_sub_one], ?_, ?_⟩
    · rw [← hrank]
      change Nat.pow 2 52 * (e + 1) + fraction = _
      ring
    · rw [Nat.succ_sub_one, log2_mul_pow hfraction]
      omega

/-- **A magnitude is nearest to itself.** -/
theorem nearestRank_units (rank : Nat) : nearestRank (units rank) (Nat.pow 2 1074) = rank := by
  obtain ⟨m, e, hunits, hrank, hlog⟩ := units_eq rank
  have hunit := pow_pos_of_pos (b := 2) 1074 (by decide)
  unfold nearestRank
  generalize Nat.pow 2 1074 = unit at hunit ⊢
  have hstep : 0 < unit * Nat.pow 2 e := Nat.mul_pos hunit (Nat.pow_pos (by decide))
  have hscaled : m * Nat.pow 2 e * unit = m * (unit * Nat.pow 2 e) := by ring
  have hexcess : (unit * Nat.pow 2 e == 0) = false := by
    rw [beq_eq_false_iff_ne]
    exact Nat.pos_iff_ne_zero.mp hstep
  simp only [Nat.mul_div_cancel _ hunit, hlog]
  rw [hunits, hscaled, Nat.mul_div_cancel _ hstep, Nat.mul_mod_left, hrank]
  simp [Nat.pos_iff_ne_zero.mp hunit]

theorem nearestRank_exact (rank : Nat) :
    nearestRank (exact rank).numerator (exact rank).denominator = rank := by
  have hnumerator : (exact rank).numerator = units rank * Nat.pow 5 1074 * Nat.pow 10 0 := rfl
  have hdenominator : (exact rank).denominator = Nat.pow 10 1074 := rfl
  rw [hnumerator, hdenominator, show Nat.pow 10 0 = 1 from rfl, Nat.mul_one, pow_ten 1074,
    nearestRank_mul _ _ (pow_pos_of_pos (b := 5) 1074 (by decide)), nearestRank_units]

/-! ## The chosen decimal -/

theorem readsBack_of_onGrid? {rank : Nat} {exponent : Int} {d : Decimal}
    (h : onGrid? rank exponent = some d) : readsBack rank d := by
  have hone : ∀ pair : Decimal × Decimal,
      (if readsBack rank pair.1 then some pair.1
        else if readsBack rank pair.2 then some pair.2 else none) = some d → readsBack rank d := by
    intro pair h
    split at h
    · rename_i hfirst
      exact Option.some.inj h ▸ hfirst
    · split at h
      · rename_i hsecond
        exact Option.some.inj h ▸ hsecond
      · exact absurd h (by simp)
  unfold onGrid? at h
  generalize Nat.pow 2 1074 = unit at h
  generalize units rank * Nat.pow 10 (-exponent).toNat = scaled at h
  exact hone _ h

/-- **The shortest decimal reads back.** -/
theorem nearestRank_shortest (rank : Nat) :
    nearestRank (shortest rank).numerator (shortest rank).denominator = rank := by
  unfold shortest
  cases h : (List.range 17).findSome? fun n =>
      onGrid? rank (decimalMagnitude rank - (n + 1 : Nat)) with
  | none => exact nearestRank_exact rank
  | some d =>
    obtain ⟨n, -, hd⟩ := List.exists_of_findSome?_eq_some h
    exact of_decide_eq_true (readsBack_of_onGrid? hd)

end Double

end LoxForms
