/-!
# Double-precision numbers

The numbers of the binary64 format, as what a literal denotes. Literals are
read, compared and written and never computed with, so a number is known by its
sign and by the rank of its magnitude: 0 for zero, 1 for the least positive
number, and so on in order. `Double.ofRatio` finds the nearest number of all,
and of two equally near ones that with an even rank.
-/

namespace LoxForms

/-- How many magnitudes are finite: 2047 exponents with 2 ^ 52 fractions each. -/
abbrev finiteMagnitudes : Nat := 2047 * Nat.pow 2 52

inductive Double where
  | finite (negative : Bool) (rank : Fin finiteMagnitudes)
  | infinite (negative : Bool)
  | nan
deriving DecidableEq, Repr

namespace Double

/-- The magnitude of a rank, as a multiple of 2 ^ -1074. The lowest two
exponents are spaced alike, and from there each is spaced twice as wide as the
one below. -/
def units (rank : Nat) : Nat :=
  if rank < Nat.pow 2 52 then rank
  else (Nat.pow 2 52 + rank % Nat.pow 2 52) * Nat.pow 2 (rank / Nat.pow 2 52 - 1)

/-- The rank of the magnitude that is nearest to a ratio. -/
def nearestRank (numerator denominator : Nat) : Nat :=
  let scaled := numerator * Nat.pow 2 1074
  let exponent := (scaled / denominator).log2 - 52
  let step := denominator * Nat.pow 2 exponent
  let below := scaled / step
  let excess := 2 * (scaled % step)
  let roundsUp := step < excess || (excess == step && below % 2 == 1)
  exponent * Nat.pow 2 52 + below + roundsUp.toNat

def ofRank (negative : Bool) (rank : Nat) : Double :=
  if h : rank < finiteMagnitudes then finite negative ⟨rank, h⟩ else infinite negative

/-- The number that is nearest to a ratio. -/
def ofRatio (negative : Bool) (numerator denominator : Nat) : Double :=
  ofRank negative (nearestRank numerator denominator)

def zero (negative : Bool) : Double := finite negative ⟨0, by decide⟩

end Double

/-- The number `digits * 10 ^ exponent`. -/
structure Decimal where
  digits : Nat
  exponent : Int
deriving DecidableEq, Repr

namespace Decimal

/-- The same number, as a ratio. -/
def numerator (d : Decimal) : Nat := d.digits * Nat.pow 10 d.exponent.toNat

def denominator (d : Decimal) : Nat := Nat.pow 10 (-d.exponent).toNat

def countDigits (n : Nat) : Nat := (Nat.toDigits 10 n).length

/-- The number is less than ten to this power and, unless it is zero, not less
than ten to the power before. -/
def magnitude (d : Decimal) : Int := countDigits d.digits + d.exponent

/-- The double-precision number nearest to a decimal. No finite magnitude is
above 10 ^ 400, and none but zero below 10 ^ -400; so the powers of ten that
are computed are never larger. -/
def toDouble (negative : Bool) (d : Decimal) : Double :=
  if d.digits = 0 || d.magnitude < -400 then .zero negative
  else if 400 < d.magnitude then .infinite negative
  else .ofRatio negative d.numerator d.denominator

end Decimal

end LoxForms
