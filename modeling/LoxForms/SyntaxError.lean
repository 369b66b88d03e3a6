import LoxForms.Lexeme
/-!
# Syntax errors

Why a text has no syntax tree. Either a token stands where none of its kind
can come next, or no token at all begins at some place. The first is noticed
while the token is looked for, if only tokens of other kinds are looked for
there, or else when it is about to be read.

Every error says where it is and which kinds of token could have come instead,
and holds the lexemes that were read before it.
-/

namespace LoxForms

/-- When a misplaced token was noticed. -/
inductive Stage where
  /-- While looking for kinds of token that it is not one of. -/
  | search
  /-- Before reading it, after finishing the productions that could be. -/
  | reading
deriving DecidableEq, Repr

inductive SyntaxError where
  | unexpectedToken (stage : Stage) (token : Lexeme) (expected : List TokenKind)
      (read : List Lexeme)
  | unexpectedCharacter (char : Char) (place : Place) (expected : List TokenKind)
      (read : List Lexeme)
deriving DecidableEq, Repr

namespace SyntaxError

/-- Where the token or the character stands. -/
def place : SyntaxError → Place
  | unexpectedToken _ token _ _ => token.first
  | unexpectedCharacter _ place _ _ => place

/-- The kinds that could have come, in the order of their names. -/
def expected : SyntaxError → List TokenKind
  | unexpectedToken _ _ expected _ => expected
  | unexpectedCharacter _ _ expected _ => expected

/-- The lexemes before the error, in the order of the text. -/
def read : SyntaxError → List Lexeme
  | unexpectedToken _ _ _ read => read
  | unexpectedCharacter _ _ _ read => read

/-- The lexeme before the error, where the error tells it: a token that was
found while others were looked for tells of one or of none, a character only
of one. -/
def previous? : SyntaxError → Option (Option Lexeme)
  | unexpectedToken .search _ _ read => some read.getLast?
  | unexpectedToken .reading _ _ _ => none
  | unexpectedCharacter _ _ _ read => read.getLast?.map some

end SyntaxError

end LoxForms
