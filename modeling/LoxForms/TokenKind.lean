/-!
# Token kinds

The thirty-nine kinds of token that a Lox program is made of, in the order
that fixes their ordinals. A kind has two names: its own (`name`), and the one
that the grammar uses for it in trees and messages (`grammarName`). They
differ for the brackets and for the end of the text, and nowhere else.
-/

namespace LoxForms

inductive TokenKind where
  | leftParen | rightParen | leftBrace | rightBrace
  | comma | dot | minus | plus | semicolon | slash | star
  | bang | bangEqual | equal | equalEqual
  | greater | greaterEqual | less | lessEqual
  | identifier | string | number
  | andWord | classWord | elseWord | falseWord | funWord | forWord | ifWord | nilWord
  | orWord | printWord | returnWord | superWord | thisWord | trueWord | varWord | whileWord
  | endOfText
deriving DecidableEq, Repr, Inhabited

namespace TokenKind

/-- Every kind, in the order of the ordinals. -/
def all : List TokenKind :=
  [leftParen, rightParen, leftBrace, rightBrace,
   comma, dot, minus, plus, semicolon, slash, star,
   bang, bangEqual, equal, equalEqual, greater, greaterEqual, less, lessEqual,
   identifier, string, number,
   andWord, classWord, elseWord, falseWord, funWord, forWord, ifWord, nilWord,
   orWord, printWord, returnWord, superWord, thisWord, trueWord, varWord, whileWord,
   endOfText]

/-- The sixteen reserved words. -/
def words : List TokenKind :=
  [andWord, classWord, elseWord, falseWord, funWord, forWord, ifWord, nilWord,
   orWord, printWord, returnWord, superWord, thisWord, trueWord, varWord, whileWord]

/-- Ordinals start at one and follow the order of `all`. -/
def ordinal (k : TokenKind) : Nat := all.idxOf k + 1

def name : TokenKind → String
  | leftParen => "LEFT_PAREN" | rightParen => "RIGHT_PAREN"
  | leftBrace => "LEFT_BRACE" | rightBrace => "RIGHT_BRACE"
  | comma => "COMMA" | dot => "DOT" | minus => "MINUS" | plus => "PLUS"
  | semicolon => "SEMICOLON" | slash => "SLASH" | star => "STAR"
  | bang => "BANG" | bangEqual => "BANG_EQUAL"
  | equal => "EQUAL" | equalEqual => "EQUAL_EQUAL"
  | greater => "GREATER" | greaterEqual => "GREATER_EQUAL"
  | less => "LESS" | lessEqual => "LESS_EQUAL"
  | identifier => "IDENTIFIER" | string => "STRING" | number => "NUMBER"
  | andWord => "AND" | classWord => "CLASS" | elseWord => "ELSE" | falseWord => "FALSE"
  | funWord => "FUN" | forWord => "FOR" | ifWord => "IF" | nilWord => "NIL"
  | orWord => "OR" | printWord => "PRINT" | returnWord => "RETURN" | superWord => "SUPER"
  | thisWord => "THIS" | trueWord => "TRUE" | varWord => "VAR" | whileWord => "WHILE"
  | endOfText => "EOF"

def grammarName : TokenKind → String
  | leftParen => "LPAR" | rightParen => "RPAR"
  | leftBrace => "LBRACE" | rightBrace => "RBRACE"
  | endOfText => "$END"
  | k => k.name

def ofName? (s : String) : Option TokenKind := all.find? (·.name = s)

/-- The characters of a token, for the kinds whose tokens are all alike. -/
def spelling? : TokenKind → Option (List Char)
  | leftParen => some ['('] | rightParen => some [')'] | leftBrace => some ['{']
  | rightBrace => some ['}'] | comma => some [','] | dot => some ['.'] | minus => some ['-']
  | plus => some ['+'] | semicolon => some [';'] | slash => some ['/'] | star => some ['*']
  | bang => some ['!'] | bangEqual => some ['!', '='] | equal => some ['=']
  | equalEqual => some ['=', '='] | greater => some ['>'] | greaterEqual => some ['>', '=']
  | less => some ['<'] | lessEqual => some ['<', '='] | andWord => some ['a', 'n', 'd']
  | classWord => some ['c', 'l', 'a', 's', 's'] | elseWord => some ['e', 'l', 's', 'e']
  | falseWord => some ['f', 'a', 'l', 's', 'e'] | funWord => some ['f', 'u', 'n']
  | forWord => some ['f', 'o', 'r'] | ifWord => some ['i', 'f']
  | nilWord => some ['n', 'i', 'l'] | orWord => some ['o', 'r']
  | printWord => some ['p', 'r', 'i', 'n', 't']
  | returnWord => some ['r', 'e', 't', 'u', 'r', 'n']
  | superWord => some ['s', 'u', 'p', 'e', 'r'] | thisWord => some ['t', 'h', 'i', 's']
  | trueWord => some ['t', 'r', 'u', 'e'] | varWord => some ['v', 'a', 'r']
  | whileWord => some ['w', 'h', 'i', 'l', 'e']
  | identifier | string | number | endOfText => none

/-- Every kind, in the order of the grammar's names as texts. -/
def byGrammarName : List TokenKind :=
  [endOfText, andWord, bang, bangEqual, classWord, comma, dot, elseWord, equal, equalEqual,
   falseWord, forWord, funWord, greater, greaterEqual, identifier, ifWord, leftBrace, less,
   lessEqual, leftParen, minus, nilWord, number, orWord, plus, printWord, rightBrace,
   returnWord, rightParen, semicolon, slash, star, string, superWord, thisWord, trueWord,
   varWord, whileWord]

theorem mem_all (k : TokenKind) : k ∈ all := by cases k <;> decide

theorem mem_byGrammarName (k : TokenKind) : k ∈ byGrammarName := by cases k <;> decide

/-- **The listing is sorted**, so what is filtered out of it is sorted too. -/
theorem byGrammarName_sorted :
    byGrammarName.Pairwise (fun a b => a.grammarName < b.grammarName) := by
  decide +kernel

/-- **A name leads back to its kind.** -/
theorem ofName?_name (k : TokenKind) : ofName? k.name = some k := by
  cases k <;> decide +kernel

end TokenKind

end LoxForms
