import LoxForms.Text.Unprintable
/-!
# Quoted texts

How a text or a run of bytes is shown inside a message: in single quotes, or
in double quotes if it holds a single one and no double one. The quote itself,
the backslash and what cannot be printed are escaped.
-/

namespace LoxForms

namespace Text

/-- Hexadecimal digits, with zeros in front up to a width. -/
def hex (width n : Nat) : List Char :=
  let digits := Nat.toDigits 16 n
  List.replicate (width - digits.length) '0' ++ digits

/-- The quote that goes around some characters. -/
def quoteFor (cs : List Char) : Char :=
  if cs.contains '\'' && !cs.contains '"' then '"' else '\''

/-- The escapes that texts and bytes share. -/
def escape? (quote c : Char) : Option (List Char) :=
  if c = quote || c = '\\' then some ['\\', c]
  else if c = '\n' then some ['\\', 'n']
  else if c = '\r' then some ['\\', 'r']
  else if c = '\t' then some ['\\', 't']
  else none

/-- The escape of an unprintable character, as long as its number needs. -/
def numericEscape (c : Char) : List Char :=
  let n := c.toNat
  if n < 0x100 then '\\' :: 'x' :: hex 2 n
  else if n < 0x10000 then '\\' :: 'u' :: hex 4 n
  else '\\' :: 'U' :: hex 8 n

def escapeChar (quote c : Char) : List Char :=
  (escape? quote c).getD (if isPrintable c then [c] else numericEscape c)

def escapeByte (quote : Char) (b : UInt8) : List Char :=
  let c := Char.ofNat b.toNat
  (escape? quote c).getD (if 0x20 ≤ b && b < 0x7f then [c] else '\\' :: 'x' :: hex 2 b.toNat)

def quoted (s : String) : String :=
  let q := quoteFor s.toList
  .ofList (q :: (s.toList.flatMap (escapeChar q) ++ [q]))

/-- Bytes are quoted like a text of the first 256 characters, after a `b`; only
those from space to tilde are shown as they are. -/
def quotedBytes (bs : List UInt8) : String :=
  let q := quoteFor (bs.map fun b => Char.ofNat b.toNat)
  .ofList ('b' :: q :: (bs.flatMap (escapeByte q) ++ [q]))

end Text

end LoxForms
