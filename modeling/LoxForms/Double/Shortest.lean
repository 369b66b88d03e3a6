import LoxForms.Double
/-!
# The shortest decimal

Every finite magnitude has a decimal with at most seventeen digits that reads
back as it. `Double.shortest` is the one with the fewest digits, and of these
the nearest: for one digit, two digits and so on it tries the two points of
that decimal grid between which the magnitude lies.
-/

namespace LoxForms

namespace Double

/-- The magnitude is less than ten to this power and, unless it is zero, not
less than ten to the power before. -/
def decimalMagnitude (rank : Nat) : Int :=
  Decimal.countDigits (units rank * Nat.pow 10 400 / Nat.pow 2 1074) - 400

def readsBack (rank : Nat) (d : Decimal) : Bool :=
  nearestRank d.numerator d.denominator = rank

/-- The point that reads back and is nearest, among the multiples of ten to an
exponent on either side of a magnitude. Of two equally near ones it is the even
one. -/
def onGrid? (rank : Nat) (exponent : Int) : Option Decimal :=
  let scaled := units rank * Nat.pow 10 (-exponent).toNat
  let step := Nat.pow 2 1074 * Nat.pow 10 exponent.toNat
  let below : Decimal := ⟨scaled / step, exponent⟩
  let above : Decimal := ⟨scaled / step + 1, exponent⟩
  let excess := 2 * (scaled % step)
  let prefersBelow := excess < step || (excess == step && below.digits % 2 == 0)
  let (first, second) := if prefersBelow then (below, above) else (above, below)
  if readsBack rank first then some first
  else if readsBack rank second then some second
  else none

/-- All the digits of a magnitude. -/
def exact (rank : Nat) : Decimal := ⟨units rank * Nat.pow 5 1074, -1074⟩

def shortest (rank : Nat) : Decimal :=
  ((List.range 17).findSome? fun n =>
    onGrid? rank (decimalMagnitude rank - (n + 1 : Nat))).getD (exact rank)

end Double

end LoxForms
