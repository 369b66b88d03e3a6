import LoxForms.Proofs.Grammar.Reading
import LoxForms.Proofs.Grammar.Written
/-!
# Derivations

A derivation says how a row of lexemes is made according to the rules: which
alternative each phrase takes, and in which forms its pieces come. It is known
by the symbols that it reads, so there is none that goes against the rules. It
has a word, the lexemes that it reads; some of these are kept and the others
are dropped. And it has trees, one for each symbol that is not dropped.

`leavesOfAll_trees` says that the leaves of the trees are the kept lexemes.
-/

namespace LoxForms

/-- The tree of a phrase, given the trees of its parts. -/
def Alternative.tree {α : Type} (alternative : Alternative) (ts : List (Tree α)) : Tree α :=
  match alternative.transparent, ts with
  | true, [t] => t
  | _, ts => .node alternative.label ts

/-- How the symbols of a row are made. -/
inductive Derivation : List Slot → Type where
  | done : Derivation []
  | keep {k : TokenKind} {slots : List Slot} (l : Lexeme) :
      l.kind = k → Derivation slots → Derivation (.keep k :: slots)
  | drop {k : TokenKind} {slots : List Slot} (l : Lexeme) :
      l.kind = k → Derivation slots → Derivation (.drop k :: slots)
  | absent {slots : List Slot} : Derivation slots → Derivation (.absent :: slots)
  | phrase {n : Nonterminal} {inner slots : List Slot} (alternative : Alternative) :
      alternative ∈ Grammar.written n → Matches alternative.pieces inner →
      Derivation inner → Derivation slots → Derivation (.phrase n :: slots)

namespace Derivation

variable {slots more : List Slot}

/-- The lexemes that are read. -/
def word {slots : List Slot} : Derivation slots → List Lexeme
  | done => []
  | keep l _ rest => l :: rest.word
  | drop l _ rest => l :: rest.word
  | absent rest => rest.word
  | phrase _ _ _ parts rest => parts.word ++ rest.word

/-- The lexemes that are not dropped. -/
def kept {slots : List Slot} : Derivation slots → List Lexeme
  | done => []
  | keep l _ rest => l :: rest.kept
  | drop _ _ rest => rest.kept
  | absent rest => rest.kept
  | phrase _ _ _ parts rest => parts.kept ++ rest.kept

/-- The trees that the symbols become. -/
def trees {slots : List Slot} : Derivation slots → List (Tree Lexeme)
  | done => []
  | keep l _ rest => .leaf l :: rest.trees
  | drop _ _ rest => rest.trees
  | absent rest => .absent :: rest.trees
  | phrase alternative _ _ parts rest => alternative.tree parts.trees :: rest.trees

/-- **Every `else` belongs to the nearest `if` that can take it**: no optional
part is missing right before an `else`, of which only that of an `if` ever
could be. -/
def NearestElse {slots : List Slot} (after : TokenKind) : Derivation slots → Prop
  | done => True
  | keep _ _ rest => rest.NearestElse after
  | drop _ _ rest => rest.NearestElse after
  | absent rest => upcoming after rest.word ≠ .elseWord ∧ rest.NearestElse after
  | phrase _ _ _ parts rest =>
    parts.NearestElse (upcoming after rest.word) ∧ rest.NearestElse after

/-! ## The leaves are the kept lexemes -/

theorem leaves_tree {α : Type} (alternative : Alternative) (ts : List (Tree α)) :
    (alternative.tree ts).leaves = Tree.leavesOfAll ts := by
  unfold Alternative.tree
  split
  · simp only [Tree.leavesOfAll, List.append_nil]
  · rfl

/-- **The leaves of the trees are the kept lexemes**, each of them once and in
their order. -/
theorem leavesOfAll_trees (d : Derivation slots) : Tree.leavesOfAll d.trees = d.kept := by
  induction d with
  | done => rfl
  | keep l _ rest ih => simp only [trees, Tree.leavesOfAll, Tree.leaves, ih, kept,
      List.singleton_append]
  | drop l _ rest ih => exact ih
  | absent rest ih => simp only [trees, Tree.leavesOfAll, Tree.leaves, ih, kept,
      List.nil_append]
  | phrase alternative _ _ parts rest ihp ih =>
    simp only [trees, Tree.leavesOfAll, leaves_tree, ihp, ih, kept]

/-! ## Derivations side by side -/

def append {slots more : List Slot} : Derivation slots → Derivation more →
    Derivation (slots ++ more)
  | done, e => e
  | keep l hl rest, e => keep l hl (rest.append e)
  | drop l hl rest, e => drop l hl (rest.append e)
  | absent rest, e => absent (rest.append e)
  | phrase alternative ha hm parts rest, e => phrase alternative ha hm parts (rest.append e)

theorem word_append (d : Derivation slots) (e : Derivation more) :
    (d.append e).word = d.word ++ e.word := by
  induction d <;> simp_all only [append, word, List.nil_append, List.cons_append,
    List.append_assoc]

theorem trees_append (d : Derivation slots) (e : Derivation more) :
    (d.append e).trees = d.trees ++ e.trees := by
  induction d <;> simp_all only [append, trees, List.nil_append, List.cons_append]

theorem nearestElse_append {after : TokenKind} (d : Derivation slots) (e : Derivation more) :
    (d.append e).NearestElse after ↔
      d.NearestElse (upcoming after e.word) ∧ e.NearestElse after := by
  induction d <;>
    simp_all only [append, NearestElse, word_append, upcoming_append, true_and, and_assoc]

end Derivation

end LoxForms
