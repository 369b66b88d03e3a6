import LoxForms.Double.Shortest
/-!
# Numbers as texts

A finite number is written with the digits of its shortest decimal, and always
with a point or an exponent. Where the first digit stands for tens to the
sixteenth power or more, or for less than ten-thousandths, it is written with
an exponent of two digits or more.
-/

namespace LoxForms

namespace Double

/-- The powers of ten that a first digit can stand for without an exponent. -/
def isPositional (power : Int) : Bool := -4 ≤ power && power < 16

/-- Digits with the point after the first `whole` of them, and with as many
zeros at either end as it takes. -/
def positional (digits : List Char) (whole : Int) : List Char :=
  if whole ≤ 0 then '0' :: '.' :: (List.replicate (-whole).toNat '0' ++ digits)
  else if digits.length ≤ whole.toNat then
    digits ++ List.replicate (whole.toNat - digits.length) '0' ++ ['.', '0']
  else digits.take whole.toNat ++ '.' :: digits.drop whole.toNat

/-- The first digit, the others after a point, and the power of ten that the
first stands for. -/
def scientific (digits : List Char) (power : Int) : List Char :=
  let point := match digits with
    | first :: second :: rest => first :: '.' :: second :: rest
    | short => short
  let exponent := Nat.toDigits 10 power.natAbs
  point ++ 'e' :: (if power < 0 then '-' else '+') ::
    (List.replicate (2 - exponent.length) '0' ++ exponent)

/-- A decimal, without zeros at the end of its digits. -/
def decimalText (d : Decimal) : List Char :=
  let digits := Nat.toDigits 10 d.digits
  let whole : Int := digits.length + d.exponent
  let significant := (digits.reverse.dropWhile (· = '0')).reverse
  if isPositional (whole - 1) then positional significant whole
  else scientific significant (whole - 1)

def magnitudeText (rank : Nat) : List Char :=
  if rank = 0 then ['0', '.', '0'] else decimalText (shortest rank)

def text : Double → String
  | finite negative rank => .ofList ((if negative then ['-'] else []) ++ magnitudeText rank)
  | infinite negative => if negative then "-inf" else "inf"
  | nan => "nan"

end Double

end LoxForms
