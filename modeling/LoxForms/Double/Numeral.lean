import LoxForms.Double
import LoxForms.Text.Digit
/-!
# Numerals

Which texts denote a number: blanks around a sign, decimal digits with at most
one point, and an exponent, or a word for infinity or for no number at all.
Digits can be of any script, and single underscores can stand between them.
-/

namespace LoxForms

namespace Double

/-- Digits of all scripts and blanks as those of the first 128 characters, and
what else is not one of these as a question mark. -/
def plain (c : Char) : Char :=
  if c.toNat < 127 then c
  else match Text.digitValue? c with
    | some n => Char.ofNat ('0'.toNat + n)
    | none => if Text.wideBlanks.contains c.toNat then ' ' else '?'

/-- A text without the blanks at its two ends. -/
def trimmed (s : List Char) : List Char :=
  ((s.dropWhile Text.isNarrowBlank).reverse.dropWhile Text.isNarrowBlank).reverse

/-- A text without its underscores, if each of them stands between two digits;
`afterDigit` tells whether a digit stands in front. -/
def ungrouped? (afterDigit : Bool) : List Char → Option (List Char)
  | [] => some []
  | '_' :: rest =>
    if afterDigit && (rest.head?.any Char.isDigit) then ungrouped? false rest else none
  | c :: rest => (ungrouped? c.isDigit rest).map (c :: ·)

def sign : List Char → Bool × List Char
  | '-' :: rest => (true, rest)
  | '+' :: rest => (false, rest)
  | s => (false, s)

def digitsValue (ds : List Char) : Nat :=
  ds.foldl (fun n d => 10 * n + (d.toNat - '0'.toNat)) 0

/-- An exponent: a sign, and one digit or more. -/
def exponent? (s : List Char) : Option Int :=
  let (negative, ds) := sign s
  if !ds.isEmpty && ds.all Char.isDigit then
    some (if negative then -(digitsValue ds : Int) else digitsValue ds)
  else none

/-- A decimal without a sign. -/
def decimal? (s : List Char) : Option Decimal :=
  let (whole, rest) := s.span Char.isDigit
  let (fraction, rest) := match rest with
    | '.' :: more => more.span Char.isDigit
    | _ => ([], rest)
  if whole.isEmpty && fraction.isEmpty then none
  else
    let scaled (exponent : Int) : Decimal :=
      ⟨digitsValue (whole ++ fraction), exponent - fraction.length⟩
    match rest with
    | [] => some (scaled 0)
    | c :: more => if c = 'e' || c = 'E' then (exponent? more).map scaled else none

/-- The words for numbers that are not finite, in letters of either case. -/
def word? (negative : Bool) (s : List Char) : Option Double :=
  match s.map Char.toLower with
  | ['i', 'n', 'f'] | ['i', 'n', 'f', 'i', 'n', 'i', 't', 'y'] => some (infinite negative)
  | ['n', 'a', 'n'] => some nan
  | _ => none

/-- The number that a text denotes. -/
def ofText? (text : String) : Option Double := do
  let s ← ungrouped? false (trimmed (text.toList.map plain))
  let (negative, s) := sign s
  word? negative s <|> (decimal? s).map (·.toDouble negative)

end Double

end LoxForms
