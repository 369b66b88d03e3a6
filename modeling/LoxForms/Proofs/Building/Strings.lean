import LoxForms.Proofs.Building.Names
import Mathlib.Algebra.Order.Ring.Nat
/-!
# No string is lost

Whatever the strings of a text weigh, the strings of its program weigh the same. So each
of them is found in the program as often as in the text, also where a rule puts its
children in another order, as the one for `for` loops does.

A rule loses nothing of what its children weigh (`Building.weight_ofRule`), except that
those for single words take no notice of any children. The grammar gives them none.
-/

namespace LoxForms

open Building

namespace Value

mutual

/-- What the strings in a value weigh together. -/
def weight (f : String → Nat) : Value → Nat
  | .text s => f s
  | .token _ _ v _ | .literal v | .grouping v | .variableName v | .super v
  | .expressionStatement v | .print v | .returnStatement v | .block v => weight f v
  | .unary u v | .assign u v | .call u v | .get u v | .variableDeclaration u v
  | .whileStatement u v => weight f u + weight f v
  | .binary u v w | .logical u v w | .set u v w | .ifStatement u v w
  | .functionDeclaration u v w | .classDeclaration u v w => weight f u + weight f v + weight f w
  | .list items | .tree _ items => weightOfAll f items
  | _ => 0

def weightOfAll (f : String → Nat) : List Value → Nat
  | [] => 0
  | v :: vs => weight f v + weightOfAll f vs

end

variable {f : String → Nat}

theorem weightOfAll_append (us vs : List Value) :
    weightOfAll f (us ++ vs) = weightOfAll f us + weightOfAll f vs := by
  induction us with
  | nil => rw [List.nil_append, weightOfAll, Nat.zero_add]
  | cons u us ih => rw [List.cons_append, weightOfAll, weightOfAll, ih, Nat.add_assoc]

theorem weight_nil : weight f nil = 0 := rfl

theorem weightOfAll_singleton (v : Value) : weightOfAll f [v] = weight f v := rfl

end Value

namespace Lexeme

/-- What a lexeme weighs: nothing, unless it is a string. -/
def weight (f : String → Nat) (l : Lexeme) : Nat :=
  if l.kind = .string then f (.ofList l.text.toList.tail.dropLast) else 0

end Lexeme

/-! ## Rule by rule -/

namespace Building

open Value

attribute [local simp] weight weightOfAll

variable {f : String → Nat} {r : Rule} {v left : Value} {us items : List Value}

theorem weight_of_listed (h : Listed v items) : weight f v = weightOfAll f items := by
  rcases h with ⟨rfl, rfl⟩ | rfl
  · rfl
  · rfl

theorem weight_foldRest {join : Value → Value → Value → Value}
    (hjoin : ∀ l o r, weight f (join l o r) = weight f l + weight f o + weight f r)
    (hv : foldRest join left us = .ok v) : weight f v = weight f left + weightOfAll f us := by
  induction left, us using foldRest.induct join with
  | case1 left =>
    obtain rfl := Except.ok.inj hv
    rfl
  | case2 left operator =>
    obtain ⟨_, -, hv⟩ := bind_eq_ok.mp hv
    cases hv
  | case3 left operator right rest ih =>
    obtain ⟨-, -, hv⟩ := foldRest_eq_ok.mp hv
    rw [ih _ _ hv, hjoin, weightOfAll, weightOfAll]
    omega

theorem weight_fold {join : Value → Value → Value → Value}
    (hjoin : ∀ l o r, weight f (join l o r) = weight f l + weight f o + weight f r)
    (hv : fold join us = .ok v) : weight f v = weightOfAll f us := by
  cases us with
  | nil => exact nomatch hv
  | cons left rest => exact weight_foldRest hjoin (fold_eq_ok.mp hv).2

/-- The body of a loop comes to stand before the increment, and weighs as much there. -/
theorem weight_forLoop (initializer condition increment body : Value) :
    weight f (forLoop initializer condition increment body) =
      weight f initializer + weight f condition + weight f increment + weight f body := by
  have hwhile (b : Value) : weight f (forLoop .nil condition .nil b) =
      weight f condition + weight f b := by
    by_cases hnil : condition = .nil
    · subst hnil
      rfl
    · rw [forLoop_of_condition hnil]
      rfl
  have hrest : weight f (forLoop .nil condition increment body) =
      weight f condition + weight f increment + weight f body := by
    by_cases hnil : increment = .nil
    · subst hnil
      exact hwhile body
    · rw [forLoop_of_increment hnil, hwhile]
      simp [Nat.add_assoc, Nat.add_comm]
  by_cases hnil : initializer = .nil
  · subst hnil
    rw [hrest]
    simp [Nat.add_assoc]
  · rw [forLoop_of_initializer hnil]
    simp [hrest, Nat.add_assoc]

/-- The rules for words that stand for a literal or for an object. -/
def wordRules : List Rule := [.trueLiteral, .falseLiteral, .nilLiteral, .thisWord]

/-- **What a rule makes weighs as much as its children.** -/
theorem weight_ofRule (hword : r ∈ wordRules → us = []) (hbase : r = .superclass → us.length = 1)
    (hv : ofRule r us = .ok v) : weight f v = weightOfAll f us := by
  have hlogical : ∀ l o r, weight f (logical l o r) = weight f l + weight f o + weight f r :=
    fun _ _ _ => rfl
  have hbinary : ∀ l o r, weight f (binary l o r) = weight f l + weight f o + weight f r :=
    fun _ _ _ => rfl
  fun_cases ofRule r us
  -- the program and its declarations
  · obtain ⟨-, rfl⟩ := ofRule_start.mp hv
    rfl
  · obtain ⟨-, -, -, rfl⟩ := ofRule_classDecl.mp hv
    simp [Nat.add_assoc]
  · obtain ⟨u, rfl⟩ := List.length_eq_one_iff.mp (hbase rfl)
    obtain ⟨-, rfl⟩ := ofRule_superclass.mp hv
    rfl
  · obtain ⟨u, rfl⟩ := List.length_eq_one_iff.mp (hbase rfl)
    obtain ⟨-, rfl⟩ := ofRule_superclass.mp hv
    rfl
  · obtain ⟨-, statements, rfl, items, hlisted, rfl⟩ := ofRule_function.mp hv
    simp [weight_of_listed hlisted, Nat.add_assoc]
  · obtain ⟨-, -, rfl⟩ := ofRule_parameters.mp hv
    rfl
  · obtain ⟨-, -, rfl⟩ := ofRule_varDecl.mp hv
    rfl
  -- statements
  · obtain ⟨-, rfl⟩ := ofRule_exprStmt.mp hv
    rfl
  · obtain ⟨-, rfl⟩ := ofRule_printStmt.mp hv
    rfl
  · obtain ⟨-, rfl⟩ := ofRule_returnStmt.mp hv
    rfl
  · obtain ⟨-, rfl⟩ := ofRule_block.mp hv
    rfl
  · obtain ⟨-, -, -, rfl⟩ := ofRule_ifStmt.mp hv
    simp [Nat.add_assoc]
  · obtain ⟨-, -, rfl⟩ := ofRule_whileStmt.mp hv
    rfl
  · obtain rfl := Except.ok.inj hv
    rfl
  · obtain ⟨-, rfl⟩ := ofRule_forInitializer.mp hv
    rfl
  · obtain ⟨-, -, -, -, rfl⟩ := ofRule_forStmt.mp hv
    rw [weight_forLoop]
    simp [Nat.add_assoc]
  -- expressions
  · obtain ⟨-, ⟨name, rfl, rfl⟩ | ⟨owner, name, rfl, rfl⟩⟩ := ofRule_assign.mp hv
    · rfl
    · simp [Nat.add_assoc]
  · exact weight_fold hlogical hv
  · exact weight_fold hlogical hv
  · exact weight_fold hbinary hv
  · exact weight_fold hbinary hv
  · exact weight_fold hbinary hv
  · exact weight_fold hbinary hv
  · obtain ⟨-, -, rfl⟩ := ofRule_unary.mp hv
    rfl
  · obtain ⟨items, hlisted, -, rfl⟩ := ofRule_call.mp hv
    simp [weight_of_listed hlisted]
  · obtain ⟨-, -, rfl⟩ := ofRule_arguments.mp hv
    rfl
  · obtain ⟨-, -, rfl⟩ := ofRule_get.mp hv
    rfl
  -- what stands by itself
  · obtain ⟨_, _, _, _, rfl, rfl⟩ := ofRule_number.mp hv
    rfl
  · obtain ⟨_, _, _, _, rfl, rfl⟩ := ofRule_string.mp hv
    rfl
  · obtain rfl := Except.ok.inj hv
    rw [hword (by decide)]
    rfl
  · obtain rfl := Except.ok.inj hv
    rw [hword (by decide)]
    rfl
  · obtain rfl := Except.ok.inj hv
    rw [hword (by decide)]
    rfl
  · obtain rfl := Except.ok.inj hv
    rw [hword (by decide)]
    rfl
  · obtain ⟨-, rfl⟩ := ofRule_variableName.mp hv
    rfl
  · obtain ⟨-, rfl⟩ := ofRule_grouping.mp hv
    rfl
  · obtain ⟨-, rfl⟩ := ofRule_superExpr.mp hv
    rfl
  -- no rule takes any other number of children
  · rw [ofRule] at hv <;> first | assumption | cases hv

end Building

/-! ## Rows -/

/-- What a phrase stands for weighs as much as its lexemes. -/
def weighing (f : String → Nat) : Account Nat where
  keeps _ v n := v.weight f = n
  drops _ n := n = 0
  phrase _ us ns := Value.weightOfAll f us = ns.sum

variable {f : String → Nat} {slots : List Slot} {us vs : List Value} {ns : List Nat}
variable {p : Production}

theorem weighing_row (h : (weighing f).Row slots us ns) : Value.weightOfAll f us = ns.sum := by
  induction slots generalizing us ns with
  | nil =>
    obtain ⟨rfl, rfl⟩ := h
    rfl
  | cons s slots ih =>
    cases s with
    | keep k =>
      obtain ⟨v, n, us, ns, rfl, rfl, rfl, h⟩ := h
      rw [Value.weightOfAll, ih h, List.sum_cons]
    | drop k =>
      obtain ⟨n, ns, rfl, rfl, h⟩ := h
      rw [ih h, List.sum_cons, Nat.zero_add]
    | absent =>
      obtain ⟨us, rfl, h⟩ := h
      rw [Value.weightOfAll, ih h, Value.weight_nil, Nat.zero_add]
    | phrase n =>
      obtain ⟨us₁, us₂, ns₁, ns₂, rfl, rfl, hphrase, h⟩ := h
      rw [Value.weightOfAll_append, ih h, List.sum_append]
      exact congrArg (· + ns₂.sum) hphrase

/-- What is checked of the grammar: a node for a single word has no children, and one for
a superclass has one. -/
theorem Grammar.words_of_mem (hp : p ∈ Grammar.productions) :
    (p.shape.isOf wordRules → ∃ k, p.slots = [.drop k]) ∧
    (p.shape.isOf [.superclass] → p.slots = [.drop .less, .keep .identifier]) := by
  have all_words : ∀ p ∈ productions.toList,
      (p.shape.isOf wordRules → ∃ k ∈ TokenKind.all, p.slots = [.drop k]) ∧
      (p.shape.isOf [.superclass] → p.slots = [.drop .less, .keep .identifier]) := by
    decide +kernel
  obtain ⟨hword, hbase⟩ := all_words p (Array.mem_toList_iff.mpr hp)
  refine ⟨fun h => ?_, hbase⟩
  obtain ⟨k, -, hk⟩ := hword h
  exact ⟨k, hk⟩

theorem weighing_closed (hp : p ∈ Grammar.productions) : (weighing f).Closed p := by
  intro us vs ns hrow hvalues
  show Value.weightOfAll f vs = ns.sum
  have hus := weighing_row hrow
  rcases Shape.values_eq_ok hvalues with ⟨l, v, hshape, hv, rfl⟩ | ⟨rfl, -⟩
  · rw [Value.weightOfAll_singleton, ← hus]
    cases l with
    | rule r =>
      have hisOf : ∀ rules : List Rule, r ∈ rules → p.shape.isOf rules := by
        intro rules hr
        rcases hshape with hshape | ⟨hshape, -⟩ <;> rw [hshape] <;>
          exact List.contains_iff_mem.mpr hr
      refine weight_ofRule (fun hr => ?_) (fun hr => ?_) (ofNode_rule.mp hv)
      · obtain ⟨k, hslots⟩ := (Grammar.words_of_mem hp).1 (hisOf _ hr)
        rw [hslots] at hrow
        obtain ⟨_, _, -, -, rfl, -⟩ := hrow
        rfl
      · have hslots := (Grammar.words_of_mem hp).2 (hisOf [.superclass] (by simp [hr]))
        rw [hslots] at hrow
        obtain ⟨_, _, -, -, _, _, _, _, rfl, -, -, rfl, -⟩ := hrow
        rfl
    | other name =>
      obtain rfl := Except.ok.inj hv
      rfl
  · exact hus

/-! ## Whole programs -/

namespace Program

theorem weight_readLexeme {l : Lexeme} {v : Value} (h : readLexeme l = .ok v) :
    v.weight f = l.weight f := by
  obtain ⟨-, denoted, hdenoted, rfl⟩ := readLexeme_eq_ok.mp h
  rw [Value.weight, Lexeme.weight]
  unfold Lexeme.Denotes at hdenoted
  split at hdenoted
  · rename_i hk
    obtain ⟨x, -, rfl⟩ := hdenoted
    rw [if_neg (by rw [hk]; decide)]
    rfl
  · rename_i hk
    rw [hdenoted, if_pos hk]
    rfl
  · rename_i hk
    rw [hdenoted, if_neg hk]
    rfl

/-- **No string is lost**, and none is repeated: the strings of a program weigh as much as
those of its text, whatever each of them weighs. -/
theorem weightOfAll_of_build {text : String} {parsed : Parsed} {statements : List Value}
    (hparsed : Parsed.ofText text = .ok parsed)
    (hbuild : parsed.tree.build readLexeme = .ok (.list statements)) :
    Value.weightOfAll f statements = (parsed.lexemes.map (Lexeme.weight f)).sum := by
  have hrow : (weighing f).Row [.phrase .program] [.list statements]
      (parsed.lexemes.map (Lexeme.weight f)) := by
    refine (Parsed.reads hparsed).row (fun p hp => weighing_closed hp) (by decide)
      (fun l _ u hu => weight_readLexeme hu) (fun l _ hfixed => if_neg ?_)
      (Tree.buildAll_cons_eq_ok.mpr ⟨_, hbuild, [], rfl, rfl⟩)
    intro hk
    rw [hk] at hfixed
    exact absurd hfixed (by decide)
  have hweight := weighing_row hrow
  rwa [Value.weightOfAll_singleton, Value.weight] at hweight

end Program

end LoxForms
