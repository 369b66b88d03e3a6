import LoxForms.Automaton.Table
/-!
# The automaton

What there is to do in a state when a token of some kind comes next. Reading
the token goes before finishing a production, so that an `else` goes to the
nearest `if` that can take it.
-/

namespace LoxForms

namespace Automaton

inductive Action where
  /-- Read the token, and go on in this state. -/
  | shift (target : Nat)
  /-- Finish this production first. -/
  | reduce (production : Production)
  /-- The program is complete. -/
  | accept
deriving DecidableEq, Repr

def state (q : Nat) : State := states[q]?.getD ⟨[], [], none⟩

/-- The production that is complete in a state. -/
def complete? (q : Nat) : Option Production :=
  (state q).complete.bind fun i => Grammar.productions[i]?

/-- The kinds before which the complete production of a state is finished. -/
def lookahead (q : Nat) : List TokenKind :=
  match complete? q with
  | some p => p.phrase.follow
  | none => []

def goto? (q : Nat) (n : Nonterminal) : Option Nat := (state q).gotos.lookup n

def action? (q : Nat) (k : TokenKind) : Option Action :=
  if q = accepting then if k = .endOfText then some .accept else none
  else match (state q).shifts.lookup k with
    | some target => some (.shift target)
    | none => if (lookahead q).contains k then (complete? q).map .reduce else none

/-- The kinds for which there is something to do in a state. -/
def wanted (q : Nat) : List TokenKind :=
  TokenKind.byGrammarName.filter fun k => (action? q k).isSome

end Automaton

end LoxForms
