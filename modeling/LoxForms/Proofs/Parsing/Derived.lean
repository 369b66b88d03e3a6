import LoxForms.Proofs.Automaton.Soundness
import LoxForms.Proofs.Grammar.Unfolding
/-!
# Every tree is derived

What comes out of reading a text is the tree of a derivation of that text's
lexemes, and the leaves of the tree are those lexemes that the derivation
keeps. Nothing is said here of which derivation it is.
-/

namespace LoxForms

/-- **A text's tree is that of a derivation of its lexemes**: the rules make a
program of the lexemes that have been read, all of them and in this order; the
tree is the one that they make of it; and the leaves of the tree, from left to
right, are the lexemes that are not dropped. -/
theorem Parsed.tree_derived {text : String} {parsed : Parsed}
    (h : Parsed.ofText text = .ok parsed) :
    ∃ d : Derivation [.phrase .program],
      d.word = parsed.lexemes ∧ d.trees = [parsed.tree] ∧ parsed.tree.leaves = d.kept := by
  obtain ⟨inner, hu, d, hw, ht, -⟩ := (Parsed.reads h).exists_derivation
  obtain rfl := hu.eq_of_plain (by decide)
  refine ⟨d, hw, ht, ?_⟩
  have hleaves := d.leavesOfAll_trees
  rwa [ht, Tree.leavesOfAll, Tree.leavesOfAll, List.append_nil] at hleaves

/-- The `<` before a superclass is dropped, and that of a comparison is kept. -/
theorem Parsed.tree_derived_less : ∃ parsed,
    Parsed.ofText "class B < A \x7b\x7d print a < 1;" = .ok parsed ∧
    parsed.lexemes.map Lexeme.text =
      ["class", "B", "<", "A", "\x7b", "\x7d", "print", "a", "<", "1", ";"] ∧
    ∃ d : Derivation [.phrase .program], d.word = parsed.lexemes ∧ d.trees = [parsed.tree] ∧
      d.kept.map Lexeme.text = ["B", "A", "a", "<", "1"] := by
  have hread : ((Parsed.ofText "class B < A \x7b\x7d print a < 1;").toOption.map fun parsed =>
      (parsed.lexemes.map Lexeme.text, parsed.tree.leaves.map Lexeme.text)) =
      some (["class", "B", "<", "A", "\x7b", "\x7d", "print", "a", "<", "1", ";"],
        ["B", "A", "a", "<", "1"]) := by decide +kernel
  cases hp : Parsed.ofText "class B < A \x7b\x7d print a < 1;" with
  | error e => rw [hp] at hread; exact absurd hread (by simp [Except.toOption])
  | ok parsed =>
    rw [hp] at hread
    obtain ⟨hlexemes, hleaves⟩ := Prod.mk.inj (Option.some.inj hread)
    obtain ⟨d, hw, ht, hkept⟩ := Parsed.tree_derived hp
    exact ⟨parsed, rfl, hlexemes, d, hw, ht, hkept ▸ hleaves⟩

end LoxForms
