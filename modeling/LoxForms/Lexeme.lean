import LoxForms.TokenKind
/-!
# Lexemes and their places

A lexeme is a piece of a text that makes one token, with the two places
between which it stands. Places count characters; a line ends at a newline
character and nowhere else.
-/

namespace LoxForms

/-- A place in a text. Offsets count from 0, lines and columns from 1. -/
structure Place where
  offset : Nat
  line : Nat
  column : Nat
deriving DecidableEq, Repr

namespace Place

/-- The place where every text begins. -/
def start : Place := ⟨0, 1, 1⟩

/-- The place after one character. -/
def after (p : Place) (c : Char) : Place :=
  if c = '\n' then ⟨p.offset + 1, p.line + 1, 1⟩ else ⟨p.offset + 1, p.line, p.column + 1⟩

/-- The place after several characters. -/
def afterAll (p : Place) (cs : List Char) : Place := cs.foldl after p

theorem afterAll_append (p : Place) (s t : List Char) :
    p.afterAll (s ++ t) = (p.afterAll s).afterAll t :=
  List.foldl_append

theorem offset_after (p : Place) (c : Char) : (p.after c).offset = p.offset + 1 := by
  unfold after
  split <;> rfl

theorem offset_afterAll (p : Place) (cs : List Char) :
    (p.afterAll cs).offset = p.offset + cs.length := by
  induction cs generalizing p with
  | nil => rfl
  | cons c cs ih =>
    rw [afterAll, List.foldl_cons, ← afterAll, ih, offset_after, List.length_cons]
    omega

end Place

structure Lexeme where
  kind : TokenKind
  text : String
  first : Place
  /-- The place after the last character. -/
  past : Place
deriving DecidableEq, Repr

namespace Lexeme

/-- The end of a text counts as an empty lexeme that stands where the last one
does. -/
def endOfText (last : Option Lexeme) : Lexeme :=
  match last with
  | some l => ⟨.endOfText, "", l.first, l.past⟩
  | none => ⟨.endOfText, "", .start, .start⟩

end Lexeme

end LoxForms
