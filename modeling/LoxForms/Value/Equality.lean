import LoxForms.Value
/-!
# Equality of values

Two values are equal if they are made alike of equal parts. Truth values,
integers and floats are compared as exact numbers, with true for 1 and false
for 0; no number equals a NaN. Dictionaries are compared without regard to
order. An object, or an expression of no known variant, equals nothing that was
made apart from it.
-/

namespace LoxForms

namespace Value

/-- What a numeric value amounts to: a multiple of 2 ^ -1074, one of the
infinities, or nothing definite. -/
inductive Amount where
  | finite (units : Int)
  | infinite (negative : Bool)
  | indefinite
deriving DecidableEq

/-- What a value amounts to, if it is numeric. -/
def amount? : Value → Option Amount
  | bool b => some (.finite (b.toNat * Nat.pow 2 1074))
  | int n => some (.finite (n * Nat.pow 2 1074))
  | float (.finite negative rank) =>
    let units : Int := Double.units rank
    some (.finite (if negative then -units else units))
  | float (.infinite negative) => some (.infinite negative)
  | float .nan => some .indefinite
  | _ => none

def sameNumber (v w : Value) : Bool :=
  match v.amount?, w.amount? with
  | some a, some b => a = b && a ≠ .indefinite
  | _, _ => false

mutual

def equal : Value → Value → Bool
  | nil, nil => true
  | text s, text t => s = t
  | list xs, list ys => equalAll xs ys
  | tuple xs, tuple ys => equalAll xs ys
  | dictionary xs, dictionary ys => xs.length = ys.length && equalEntries xs ys
  | bytes xs, bytes ys => xs = ys
  | kind j, kind k => j = k
  | token k s v n, token k' s' v' n' => k = k' && s = s' && equal v v' && n = n'
  | binary l o r, binary l' o' r' => equal l l' && equal o o' && equal r r'
  | grouping e, grouping e' => equal e e'
  | literal v, literal v' => equal v v'
  | unary o r, unary o' r' => equal o o' && equal r r'
  | variableName n, variableName n' => equal n n'
  | assign n v, assign n' v' => equal n n' && equal v v'
  | logical l o r, logical l' o' r' => equal l l' && equal o o' && equal r r'
  | call c a, call c' a' => equal c c' && equal a a'
  | get o n, get o' n' => equal o o' && equal n n'
  | set o n v, set o' n' v' => equal o o' && equal n n' && equal v v'
  | super m, super m' => equal m m'
  | this, this => true
  | expressionStatement e, expressionStatement e' => equal e e'
  | print e, print e' => equal e e'
  | returnStatement v, returnStatement v' => equal v v'
  | variableDeclaration n i, variableDeclaration n' i' => equal n n' && equal i i'
  | block s, block s' => equal s s'
  | ifStatement c t e, ifStatement c' t' e' => equal c c' && equal t t' && equal e e'
  | whileStatement c b, whileStatement c' b' => equal c c' && equal b b'
  | functionDeclaration n p b, functionDeclaration n' p' b' =>
    equal n n' && equal p p' && equal b b'
  | classDeclaration n s m, classDeclaration n' s' m' =>
    equal n n' && equal s s' && equal m m'
  | tree n cs, tree n' cs' => n = n' && equalAll cs cs'
  | v, w => sameNumber v w

def equalAll : List Value → List Value → Bool
  | [], [] => true
  | x :: xs, y :: ys => equal x y && equalAll xs ys
  | _, _ => false

/-- Whether each entry of the first dictionary has its like in the second. -/
def equalEntries : List (Value × Value) → List (Value × Value) → Bool
  | [], _ => true
  | (k, v) :: rest, entries =>
    entries.any (fun (k', v') => equal k k' && equal v v') && equalEntries rest entries

end

/-- A dictionary in which a later entry with an equal key gives its value to
the earlier one. -/
def insertEntry (k v : Value) : List (Value × Value) → List (Value × Value)
  | [] => [(k, v)]
  | (k', v') :: rest => if equal k' k then (k', v) :: rest else (k', v') :: insertEntry k v rest

def ofEntries (entries : List (Value × Value)) : Value :=
  dictionary (entries.foldl (fun d (k, v) => insertEntry k v d) [])

end Value

end LoxForms
