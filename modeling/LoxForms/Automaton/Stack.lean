import LoxForms.Automaton
import LoxForms.Lexeme
import LoxForms.Tree
/-!
# The stack of a text that is being read

A stack has a frame for every symbol that has been read and belongs to no
finished phrase yet, with the state that it led to and the trees that it has
become. Before a token is read, the productions that are complete before it
are finished; `settle` does this, and says whether the token can be read then.
`expected` tries all kinds of token in this way.
-/

namespace LoxForms

namespace Automaton

structure Frame where
  state : Nat
  trees : List (Tree Lexeme)

/-- The frames of what has been read, the last one first. -/
abbrev Stack := List Frame

namespace Stack

/-- The state that the text read so far has led to. -/
def top : Stack → Nat
  | [] => 0
  | frame :: _ => frame.state

/-- Puts one frame in the place of those that a production has read. -/
def reduce? (s : Stack) (p : Production) : Option Stack :=
  let rest := s.drop p.arity
  (goto? (top rest) p.phrase).map fun q =>
    ⟨q, p.shaped ((s.take p.arity).reverse.map Frame.trees)⟩ :: rest

/-- What a token finds after the productions before it have been finished. -/
inductive Settled where
  /-- It can be read, and leads to this state. -/
  | reads (target : Nat) (stack : Stack)
  /-- It is the end of a complete program. -/
  | ends (stack : Stack)
  /-- It fits nowhere. -/
  | stuck (stack : Stack)

def settleWithin (k : TokenKind) : Nat → Stack → Settled
  | 0, s => .stuck s
  | n + 1, s =>
    match action? (top s) k with
    | some (.shift q) => .reads q s
    | some .accept => .ends s
    | some (.reduce p) =>
      match reduce? s p with
      | some s' => settleWithin k n s'
      | none => .stuck s
    | none => .stuck s

/-- A number of productions that are never all finished before one token: for
each frame, at most one production of each phrase leaves the number of frames
as it is. -/
def reductionBound (s : Stack) : Nat := Nonterminal.all.length * (s.length + 2)

def settle (s : Stack) (k : TokenKind) : Settled := settleWithin k (reductionBound s) s

/-- Whether a token of this kind can come next. -/
def admits (s : Stack) (k : TokenKind) : Bool :=
  match settle s k with
  | .stuck _ => false
  | .reads .. | .ends _ => true

/-- The kinds of token that can come next, in the order of their names. -/
def expected (s : Stack) : List TokenKind := (wanted (top s)).filter (admits s)

end Stack

end Automaton

end LoxForms
