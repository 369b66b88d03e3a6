import LoxForms.Grammar
/-!
# Syntax trees

A tree as the grammar shapes it: named nodes, leaves, and the absent children
that missing optional phrases leave behind. What a leaf holds is left open.
-/

namespace LoxForms

inductive Tree (α : Type) where
  | node (label : Label) (children : List (Tree α))
  | leaf (a : α)
  | absent
deriving Repr

namespace Tree

variable {α : Type}

mutual

/-- The leaves of a tree, from left to right. -/
def leaves : Tree α → List α
  | node _ children => leavesOfAll children
  | leaf a => [a]
  | absent => []

def leavesOfAll : List (Tree α) → List α
  | [] => []
  | t :: ts => leaves t ++ leavesOfAll ts

end

end Tree

namespace Shape

variable {α : Type}

/-- The trees that a production's children become. -/
def apply : Shape → List (Tree α) → List (Tree α)
  | node l, ts => [.node l ts]
  | nodeUnlessSingle _, [t] => [t]
  | nodeUnlessSingle l, ts => [.node l ts]
  | splice, ts => ts

end Shape

namespace Production

variable {α : Type}

/-- The children of a production, from the trees of each symbol that it has
read. -/
def children : List Slot → List (List (Tree α)) → List (Tree α)
  | .absent :: ps, tss => .absent :: children ps tss
  | .drop _ :: ps, _ :: tss => children ps tss
  | .keep _ :: ps, ts :: tss => ts ++ children ps tss
  | .phrase _ :: ps, ts :: tss => ts ++ children ps tss
  | _, _ => []

/-- The trees that a production makes of the trees of each symbol that it has
read. -/
def shaped (p : Production) (tss : List (List (Tree α))) : List (Tree α) :=
  p.shape.apply (children p.slots tss)

end Production

end LoxForms
