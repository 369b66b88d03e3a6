import LoxForms.Value
/-!
# The parts of a value

Every value that stands somewhere in a program is a part of a part of it, and so
on down from a statement. `Value.subvalues` tells the parts of one value, each
with the role that it has there. A part that is a list is gone through, so that each
of its items has the role of the list; a list that is no part of a node has
items and nothing more.

What is to hold of all values in a program holds `Value.Throughout` it.
-/

namespace LoxForms

namespace Value

/-- What a value is to the value that it is a part of. -/
inductive Role where
  /-- A name, an operator or a parameter. -/
  | token
  /-- What an operator works on, what is called, and what has a property. -/
  | operand
  /-- The expression that is a statement, or is printed by one. -/
  | whole
  | argument | grouped | assigned | initializer | condition | returned
  /-- The value of a literal. -/
  | denoted
  /-- A statement of a block or a function. -/
  | statement
  /-- What is done on a condition, and if it does not hold. -/
  | branch | elseBranch
  | base | method
  /-- One of the values that a container holds. -/
  | item
deriving DecidableEq, Repr

/-- The values of a part that can be a list, all of them in the same role. -/
def each (r : Role) : Value → List (Role × Value)
  | list items => items.map (r, ·)
  | v => [(r, v)]

def subvalues : Value → List (Role × Value)
  | binary left operator right | logical left operator right =>
    [(.operand, left), (.token, operator), (.operand, right)]
  | unary operator right => [(.token, operator), (.operand, right)]
  | grouping e => [(.grouped, e)]
  | literal v => [(.denoted, v)]
  | variableName name | super name => [(.token, name)]
  | assign name v => [(.token, name), (.assigned, v)]
  | call callee arguments => (.operand, callee) :: each .argument arguments
  | get owner name => [(.operand, owner), (.token, name)]
  | set owner name v => [(.operand, owner), (.token, name), (.assigned, v)]
  | expressionStatement e | print e => [(.whole, e)]
  | returnStatement e => [(.returned, e)]
  | variableDeclaration name e => [(.token, name), (.initializer, e)]
  | block statements => each .statement statements
  | ifStatement condition thenBranch elseBranch =>
    [(.condition, condition), (.branch, thenBranch), (.elseBranch, elseBranch)]
  | whileStatement condition body => [(.condition, condition), (.branch, body)]
  | functionDeclaration name params body =>
    (.token, name) :: (each .token params ++ each .statement body)
  | classDeclaration name base methods => (.token, name) :: (.base, base) :: each .method methods
  | token _ _ v _ => [(.denoted, v)]
  | list items | tuple items => items.map (.item, ·)
  | dictionary entries => entries.flatMap fun entry => [(.item, entry.1), (.item, entry.2)]
  | tree _ children => children.map (.item, ·)
  | nil | bool _ | int _ | float _ | text _ | bytes _ | kind _ | object | this
  | otherExpression _ => []

/-- To stand somewhere in a value. -/
inductive Within : Value → Value → Prop
  | refl (v : Value) : Within v v
  | part {u v w : Value} {r : Role} : (r, u) ∈ v.subvalues → Within w u → Within w v

/-- To hold of all that stands in a value, and of the value itself. -/
def Throughout (P : Value → Prop) (v : Value) : Prop := ∀ u, u.Within v → P u

section

variable {P : Value → Prop} {r : Role} {u v : Value}

theorem role_of_mem_each {part : Role × Value} (h : part ∈ each r v) : part.1 = r := by
  unfold each at h
  split at h
  · obtain ⟨_, -, rfl⟩ := List.mem_map.mp h
    rfl
  · rw [List.mem_singleton.mp h]

theorem throughout_iff : v.Throughout P ↔ P v ∧ ∀ part ∈ v.subvalues, part.2.Throughout P := by
  constructor
  · intro h
    exact ⟨h v (.refl v), fun part hpart w hw => h w (.part hpart hw)⟩
  · rintro ⟨hv, hparts⟩ w hw
    cases hw with
    | refl => exact hv
    | part hpart hw => exact hparts _ hpart w hw

theorem Throughout.self (h : v.Throughout P) : P v := h v (.refl v)

theorem Throughout.part (h : v.Throughout P) (hu : (r, u) ∈ v.subvalues) : u.Throughout P :=
  (throughout_iff.mp h).2 (r, u) hu

end

end Value

end LoxForms
