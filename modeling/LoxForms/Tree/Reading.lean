import LoxForms.Automaton.Stack
import LoxForms.Lexeme.Reading
import LoxForms.SyntaxError
/-!
# Reading a syntax tree

A text is read once, from left to right. At each place the state of the stack
says which kinds of token to look for; the lexeme that is found settles the
stack and is then read. The tree is what the stack holds at the end.

`Progress.run` goes through the characters one by one. The characters of a
lexeme, a comment or a blank after its first one are counted when it is found
and then passed over, so the recursion is on the text itself.
-/

namespace LoxForms

open Automaton

/-- A syntax tree with the lexemes that it was read from. -/
structure Parsed where
  tree : Tree Lexeme
  lexemes : List Lexeme

/-- What has been read of a text. -/
structure Progress where
  stack : Stack
  /-- The lexemes so far, the last one first. -/
  read : List Lexeme

namespace Progress

def start : Progress := ⟨[], []⟩

def wanted (p : Progress) : List TokenKind := Automaton.wanted p.stack.top

/-- The error for a token that the settled stack does not admit. -/
def unexpected (p : Progress) (stage : Stage) (token : Lexeme) (settled : Stack)
    (fallback : List TokenKind) : SyntaxError :=
  let expected := settled.expected
  .unexpectedToken stage token (if expected.isEmpty then fallback else expected) p.read.reverse

/-- Reads one lexeme. -/
def feed (p : Progress) (l : Lexeme) : Except SyntaxError Progress :=
  match p.stack.settle l.kind with
  | .reads target stack => .ok ⟨⟨target, [.leaf l]⟩ :: stack, l :: p.read⟩
  | .ends stack | .stuck stack =>
    .error (p.unexpected .reading l stack (Automaton.wanted stack.top))

/-- The tree of a text whose end has been reached. -/
def finish (p : Progress) : Except SyntaxError Parsed :=
  match p.stack.settle .endOfText with
  | .ends stack =>
    .ok ⟨(stack.head?.bind (·.trees.head?)).getD .absent, p.read.reverse⟩
  | .reads _ stack | .stuck stack =>
    .error (p.unexpected .reading (.endOfText p.read.head?) stack
      (Automaton.wanted stack.top))

/-- The error at a place where nothing begins that is looked for. Whatever
token does begin there is unexpected. -/
def noToken (p : Progress) (here : Place) (c : Char) (rest : List Char) : SyntaxError :=
  let searched := Lexeme.searched p.wanted
  match Lexeme.token? TokenKind.all (c :: rest) with
  | some (k, t) =>
    p.unexpected .search ⟨k, .ofList t, here, here.afterAll t⟩ p.stack searched
  | none => .unexpectedCharacter c here searched p.read.reverse

/-- Reads the rest of a text, after passing over its first `skip` characters. -/
def run (p : Progress) (here : Place) : Nat → List Char → Except SyntaxError Parsed
  | _, [] => p.finish
  | skip + 1, c :: rest => run p (here.after c) skip rest
  | 0, c :: rest =>
    match Lexeme.read p.wanted (c :: rest) with
    | .gap n => run p (here.after c) (n - 1) rest
    | .token k t =>
      match p.feed ⟨k, .ofList t, here, here.afterAll t⟩ with
      | .ok q => run q (here.after c) (t.length - 1) rest
      | .error e => .error e
    | .nothing => .error (p.noToken here c rest)

end Progress

/-- Reads a whole text. -/
def Parsed.ofText (text : String) : Except SyntaxError Parsed :=
  Progress.start.run .start 0 text.toList

end LoxForms
