import LoxForms.SyntaxError
import LoxForms.Text.Quoted
/-!
# Messages of syntax errors

The message of an error says what was found and where, and which kinds of token
were expected. For a character that begins no token it also shows the line
around it, with a mark below the character.
-/

namespace LoxForms

namespace SyntaxError

/-- How many characters of a line are shown before the error, and from it on. -/
def span : Nat := 40

/-- The characters after the last newline. -/
def lastLine (s : List Char) : List Char := (s.reverse.takeWhile (· != '\n')).reverse

def firstLine (s : List Char) : List Char := s.takeWhile (· != '\n')

/-- How wide a text is when each tab goes to the next multiple of eight. A
carriage return counts as one character and begins the counting of tabs anew;
`column` is what has been counted so far. -/
def width (column : Nat) : List Char → Nat
  | [] => 0
  | '\t' :: rest => (8 - column % 8) + width (column + (8 - column % 8)) rest
  | '\r' :: rest => 1 + width 0 rest
  | _ :: rest => 1 + width (column + 1) rest

/-- The line around a place of a text, and a mark below the place. -/
def contextAt (source : List Char) (offset : Nat) : String :=
  let before := lastLine ((source.take offset).drop (offset - span))
  let after := firstLine ((source.drop offset).take span)
  .ofList (before ++ after ++ '\n' :: (List.replicate (width 0 before) ' ' ++ ['^', '\n']))

def context (source : String) (e : SyntaxError) : String :=
  contextAt source.toList e.place.offset

/-- A lexeme by its kind and its text. -/
def describeLexeme (l : Lexeme) : String :=
  "Token(" ++ Text.quoted l.kind.grammarName ++ ", " ++ Text.quoted l.text ++ ")"

def expectedLines (kinds : List TokenKind) : String :=
  "Expected one of: \n" ++
    (if kinds.isEmpty then "\t* \n"
     else String.join (kinds.map fun k => "\t* " ++ k.grammarName ++ "\n"))

/-- The previous lexeme, where one can be told. -/
def describePrevious : Option Lexeme → String
  | some l => describeLexeme l
  | none => "None"

def message (source : String) (e : SyntaxError) : String :=
  match e with
  | unexpectedToken _ token expected _ =>
    "Unexpected token " ++ describeLexeme token ++ " at line " ++ toString token.first.line ++
      ", column " ++ toString token.first.column ++ ".\n" ++ expectedLines expected ++
      (match e.previous? with
       | some l => "Previous tokens: [" ++ describePrevious l ++ "]\n"
       | none => "")
  | unexpectedCharacter char place expected _ =>
    "No terminal matches '" ++ char.toString ++ "' in the current parser context, at line " ++
      toString place.line ++ " col " ++ toString place.column ++ "\n\n" ++ e.context source ++
      expectedLines expected ++
      (match e.previous? with
       | some l => "\nPrevious tokens: " ++ describePrevious l ++ "\n"
       | none => "")

end SyntaxError

end LoxForms
