import LoxForms.Proofs.Writing.Regaining
/-!
# Writing expressions

An expression in normal form is regained from its signs, by the phrase for
expressions that hold together as tightly as it does, and so by all phrases for
looser ones. A chain of operators that bind alike nests to the left, but its
operands and operators are read one after the other: it is the fold of these
(`Chained`).
-/

namespace LoxForms

open Building Value

/-! ## Levels -/

namespace Nonterminal

/-- The phrases for expressions, from the loosest to the tightest. -/
def atLevel : Nat → Nonterminal
  | 0 => assignment
  | 1 => logicOr
  | 2 => logicAnd
  | 3 => equality
  | 4 => comparison
  | 5 => term
  | 6 => factor
  | 7 => unary
  | _ => callChain

/-- The second and later operands of a level of binary operators. -/
def tailAt : Nat → Nonterminal
  | 1 => orTail
  | 2 => andTail
  | 3 => equalityTail
  | 4 => comparisonTail
  | 5 => termTail
  | _ => factorTail

end Nonterminal

/-- The rule for a level of binary operators. -/
def Rule.atLevel : Nat → Rule
  | 1 => logicOr
  | 2 => logicAnd
  | 3 => equality
  | 4 => comparison
  | 5 => term
  | _ => factor

def Label.atLevel : Nat → Label
  | 0 => other "assignment"
  | 7 => rule .unary
  | i => rule (.atLevel i)

/-- What becomes of an operator with its operands. -/
def Value.joinAt (i : Nat) : Value → Value → Value → Value := if i ≤ 2 then logical else binary

namespace Grammar

theorem mem_of_operatorRules {p : Production} (h : p ∈ operatorRules) : p ∈ productions :=
  mem_productions.mpr (.inr (.inr (.inl h)))

theorem mem_of_primaryRules {p : Production} (h : p ∈ primaryRules) : p ∈ productions :=
  mem_productions.mpr (.inr (.inr (.inr h)))

/-- A phrase of one level can stand for one of the next. -/
theorem level_mem {i : Nat} (hi : i < 8) :
    ⟨.atLevel i, [.phrase (.atLevel (i + 1))], .nodeUnlessSingle (.atLevel i)⟩ ∈ operatorRules := by
  have all_levels : ∀ i < 8, ⟨.atLevel i, [.phrase (.atLevel (i + 1))],
      .nodeUnlessSingle (.atLevel i)⟩ ∈ operatorRules := by decide +kernel
  exact all_levels i hi

/-- The productions of a level of binary operators: a chain, and the operators
of the level with an operand each, as the first one of a chain or a later one. -/
theorem chain_mem (k : TokenKind) : k.strength ≠ 0 →
    ⟨.atLevel k.strength, [.phrase (.atLevel (k.strength + 1)), .phrase (.tailAt k.strength)],
      .nodeUnlessSingle (.rule (.atLevel k.strength))⟩ ∈ operatorRules ∧
    ⟨.tailAt k.strength, [.keep k, .phrase (.atLevel (k.strength + 1))], .splice⟩ ∈ operatorRules ∧
    ⟨.tailAt k.strength,
      [.phrase (.tailAt k.strength), .keep k, .phrase (.atLevel (k.strength + 1))], .splice⟩ ∈
        operatorRules := by
  have hk := k.mem_all
  revert hk
  revert k
  decide +kernel

end Grammar

namespace Value

/-! ## Chains -/

variable {v left operator right : Value} {k : TokenKind} {i j : Nat}

/-- To be regained as a phrase, whatever comes next. -/
def RegainedAs (n : Nonterminal) (v : Value) : Prop :=
  ∀ after, Regains after [.phrase n] (spell v) [v]

/-- What can stand at a level can stand at all looser ones. -/
theorem RegainedAs.looser (h : RegainedAs (.atLevel j) v) (hij : i ≤ j) :
    RegainedAs (.atLevel i) v := by
  induction hij with
  | refl => exact h
  | @step j _ ih =>
    refine ih fun after => ?_
    by_cases hj : j < 8
    · exact (h after).through (Grammar.mem_of_operatorRules (Grammar.level_mem hj))
    · obtain ⟨m, rfl⟩ := Nat.exists_eq_add_of_le' (Nat.not_lt.mp hj)
      exact h after

/-- To be the fold of a chain whose operands and operators are regained. -/
def Chained (i : Nat) (v : Value) : Prop :=
  ∃ first rest gs hs, spell v = gs ++ hs ∧ rest ≠ [] ∧ fold (joinAt i) (first :: rest) = .ok v ∧
    (∀ after, Regains after [.phrase (.atLevel (i + 1))] gs [first]) ∧
    ∀ after, Regains after [.phrase (.tailAt i)] hs rest

theorem foldRest_append {join : Value → Value → Value → Value} {first : Value}
    {us : List Value} (h : foldRest join first us = .ok left) (ho : operator.isToken)
    (hr : right.isExpression) :
    foldRest join first (us ++ [operator, right]) = .ok (join left operator right) := by
  induction first, us using foldRest.induct join with
  | case1 first =>
    obtain rfl := Except.ok.inj h
    exact foldRest_eq_ok.mpr ⟨ho, hr, rfl⟩
  | case2 first o =>
    obtain ⟨_, -, h⟩ := bind_eq_ok.mp h
    exact absurd h (by simp)
  | case3 first o r rest ih =>
    obtain ⟨ho', hr', h⟩ := foldRest_eq_ok.mp h
    exact foldRest_eq_ok.mpr ⟨ho', hr', ih _ _ h⟩

theorem IsOperator.isToken (h : IsOperator k operator) : operator.isToken := by
  obtain ⟨line, rfl⟩ := h
  rfl

/-- The kinds of operators have the same name in the grammar. -/
theorem grammarName_of_strength (hk : k.strength ≠ 0) : k.grammarName = k.name := by
  cases k <;> first | rfl | exact absurd rfl hk

/-- An operator and its operand, as they stand in a chain. -/
theorem regains_operand (hk : k.strength ≠ 0) (ho : IsOperator k operator)
    (hr : RegainedAs (.atLevel (k.strength + 1)) right) (after : TokenKind) :
    Regains after [.keep k, .phrase (.atLevel (k.strength + 1))] (spell operator ++ spell right)
      [operator, right] := by
  refine (hr after).operator ho (grammarName_of_strength hk) ?_ ?_
  · rintro rfl
    exact hk rfl
  · rintro rfl
    exact hk rfl

theorem spell_joinAt (i : Nat) (left operator right : Value) :
    spell (joinAt i left operator right) = spell left ++ spell operator ++ spell right := by
  unfold joinAt
  split <;> rfl

/-- A chain begins with an operand that is none itself. -/
theorem chained_of_operand (hk : k.strength ≠ 0) (ho : IsOperator k operator)
    (hl : RegainedAs (.atLevel (k.strength + 1)) left)
    (hr : RegainedAs (.atLevel (k.strength + 1)) right) (hleft : left.isExpression)
    (hright : right.isExpression) : Chained k.strength (joinAt k.strength left operator right) := by
  refine ⟨left, [operator, right], spell left, spell operator ++ spell right, ?_, by simp, ?_, hl,
    fun after => ?_⟩
  · rw [spell_joinAt, List.append_assoc]
  · exact fold_eq_ok.mpr ⟨hleft, foldRest_eq_ok.mpr ⟨ho.isToken, hright, rfl⟩⟩
  · exact .production (Grammar.mem_of_operatorRules (Grammar.chain_mem k hk).2.1)
      (regains_operand hk ho hr after) rfl

/-- A chain grows at the right. -/
theorem Chained.more (hl : Chained k.strength left) (hk : k.strength ≠ 0)
    (ho : IsOperator k operator) (hr : RegainedAs (.atLevel (k.strength + 1)) right)
    (hright : right.isExpression) :
    Chained k.strength (joinAt k.strength left operator right) := by
  obtain ⟨first, rest, gs, hs, hsplit, hne, hfold, hfirst, hrest⟩ := hl
  refine ⟨first, rest ++ [operator, right], gs, hs ++ (spell operator ++ spell right), ?_, by simp,
    ?_, hfirst, fun after => ?_⟩
  · rw [spell_joinAt, hsplit]
    simp only [List.append_assoc]
  · obtain ⟨hexpression, hfold⟩ := fold_eq_ok.mp hfold
    exact fold_eq_ok.mpr ⟨hexpression, foldRest_append hfold ho.isToken hright⟩
  · exact .production (Grammar.mem_of_operatorRules (Grammar.chain_mem k hk).2.2)
      (.phrase (fun after _ => hrest after) (regains_operand hk ho hr after)) rfl

theorem ofRule_atLevel (hk : k.strength ≠ 0) (us : List Value) :
    ofRule (.atLevel k.strength) us = fold (joinAt k.strength) us := by
  cases k <;> first | rfl | exact absurd rfl hk

/-- What a chain makes is regained. -/
theorem Chained.regainedAs (h : Chained k.strength v) (hk : k.strength ≠ 0) :
    RegainedAs (.atLevel k.strength) v := by
  obtain ⟨first, rest, gs, hs, hsplit, hne, hfold, hfirst, hrest⟩ := h
  intro after
  rw [hsplit]
  refine .production (Grammar.mem_of_operatorRules (Grammar.chain_mem k hk).1)
    (.phrase (fun after _ => hfirst after) (hrest after)) ?_
  rw [Shape.values_nodeUnlessSingle (by simpa using hne), Shape.values_node]
  exact ⟨v, ofNode_rule.mpr ((ofRule_atLevel hk _).trans hfold), rfl⟩

/-! ## Primaries -/

theorem NormalExpression.isExpression (h : NormalExpression v) : v.isExpression := by
  cases h <;> rfl

/-- A primary that is a word. -/
theorem regains_word {r : Rule} {after : TokenKind}
    (hp : Grammar.named .primary r [.drop k] ∈ Grammar.primaryRules) (hv : ofRule r [] = .ok v) :
    Regains after [.phrase .primary] [.fixed k] [v] :=
  .named (Grammar.mem_of_primaryRules hp) (.drop .done) hv

/-- A primary that is a token of which the rule takes the literal. -/
theorem regains_token {r : Rule} {g : Sign} {after : TokenKind}
    (hp : Grammar.named .primary r [.keep k] ∈ Grammar.primaryRules)
    (h : ∀ l : Lexeme, l.sign = g →
      l.kind = k ∧ ∃ u, Program.readLexeme l = .ok u ∧ ofRule r [u] = .ok v) :
    Regains after [.phrase .primary] [g] [v] := by
  intro w hw
  obtain ⟨l, _, rfl, hl, hw⟩ := List.map_eq_cons_iff.mp hw
  obtain rfl := List.map_eq_nil_iff.mp hw
  obtain ⟨hk, u, hu, hv⟩ := h l hl
  refine ⟨_, [v], (Reads.keep hk .done).production (Grammar.mem_of_primaryRules hp), ?_, rfl⟩
  refine (Shape.buildAll_apply _).mpr ⟨[u], ?_, ?_⟩
  · exact Tree.buildAll_cons_eq_ok.mpr ⟨u, hu, [], rfl, rfl⟩
  · exact Shape.values_node.mpr ⟨v, ofNode_rule.mpr hv, rfl⟩

theorem IsDenoted.regainedAs (h : IsDenoted v) : RegainedAs .primary (literal v) := by
  intro after
  cases h with
  | nil => exact regains_word (r := .nilLiteral) (by simp [Grammar.primaryRules]) rfl
  | bool b =>
    cases b
    · exact regains_word (r := .falseLiteral) (by simp [Grammar.primaryRules]) rfl
    · exact regains_word (r := .trueLiteral) (by simp [Grammar.primaryRules]) rfl
  | @float _ x _ _ =>
    refine regains_token (k := .number) (r := .number) (by simp [Grammar.primaryRules]) ?_
    intro l hl
    obtain ⟨hkind, hvalue⟩ := Lexeme.of_sign_number hl
    refine ⟨hkind, .token .number l.text (.float x) l.first.line, ?_, rfl⟩
    refine Program.readLexeme_eq_ok.mpr ⟨by rw [hkind]; rfl, .float x, ?_, by rw [hkind]⟩
    unfold Lexeme.Denotes
    rw [hkind]
    exact ⟨x, hvalue, rfl⟩
  | @text s _ =>
    refine regains_token (k := .string) (r := .string) (by simp [Grammar.primaryRules]) ?_
    intro l hl
    obtain ⟨hkind, htext⟩ := Lexeme.of_sign_string hl
    refine ⟨hkind, .token .string l.text (.text s) l.first.line, ?_, rfl⟩
    refine Program.readLexeme_eq_ok.mpr ⟨by rw [hkind]; rfl, .text s, ?_, by rw [hkind]⟩
    unfold Lexeme.Denotes
    rw [hkind, htext]

theorem IsName.isToken (h : IsName v) : v.isToken := by
  obtain ⟨lexeme, line, -, rfl⟩ := h
  rfl

theorem regainedAs_variableName (h : IsName v) : RegainedAs .primary (variableName v) := by
  intro after
  have hrow : Regains after [.keep .identifier] _ _ := .name h .done
  exact hrow.made (Grammar.mem_of_primaryRules (by simp [Grammar.primaryRules]))
    (ofRule_variableName.mpr ⟨h.isToken, rfl⟩) (by simp [spell])

theorem regainedAs_super (h : IsName v) : RegainedAs .primary (super v) := by
  intro after
  have hrow : Regains after [.drop .superWord, .drop .dot, .keep .identifier] _ _ :=
    .drop (.drop (.name h .done))
  exact hrow.made (Grammar.mem_of_primaryRules (by simp [Grammar.primaryRules]))
    (ofRule_superExpr.mpr ⟨h.isToken, rfl⟩) (by simp [spell])

/-! ## Expressions -/

/-- An expression in parentheses can be any. -/
theorem regainedAs_grouping (h : RegainedAs .expression v) (hv : v.isExpression) :
    RegainedAs .primary (grouping v) := by
  intro after
  have hrow : Regains after [.drop .leftParen, .phrase .expression, .drop .rightParen] _ _ :=
    .drop (.phrase (fun after _ => h after) (.drop .done))
  exact hrow.made (Grammar.mem_of_primaryRules (by simp [Grammar.primaryRules]))
    (ofRule_grouping.mpr ⟨hv, rfl⟩) (by simp [spell])

theorem regainedAs_get {name : Value} (h : RegainedAs .callChain v) (hv : v.isExpression)
    (hname : IsName name) : RegainedAs .callChain (get v name) := by
  intro after
  have hrow : Regains after [.phrase .callChain, .drop .dot, .keep .identifier] _ _ :=
    .phrase (fun after _ => h after) (.drop (.name hname .done))
  exact hrow.made (Grammar.mem_of_primaryRules (by simp [Grammar.primaryRules]))
    (ofRule_get.mpr ⟨hname.isToken, hv, rfl⟩) (by simp [spell])

/-- Arguments with commas between them, if there are any. -/
theorem regains_arguments {vs : List Value} {after : TokenKind} (hne : vs ≠ [])
    (hvs : ∀ v ∈ vs, RegainedAs .expression v ∧ v.isExpression) (hlen : vs.length ≤ argumentLimit)
    (hafter : after ≠ .elseWord) :
    Regains after [.phrase .arguments] (spellListed (list vs)) [list vs] := by
  obtain ⟨first, rest, rfl⟩ := List.exists_cons_of_ne_nil hne
  have hmade : ofRule .arguments (first :: rest) = .ok (list (first :: rest)) :=
    ofRule_arguments.mpr ⟨hlen, fun v hv => (hvs v hv).2, rfl⟩
  rw [List.forall_mem_cons] at hvs
  rw [spellListed]
  by_cases hrest : rest = []
  · subst hrest
    have hrow : Regains after [.phrase .expression] (spell first ++ []) [first] := by
      rw [List.append_nil]
      exact hvs.1.1 after
    exact .named (r := .arguments) (Grammar.mem_of_primaryRules (by simp [Grammar.primaryRules]))
      hrow hmade
  · have hmore : Regains after [.phrase .moreArguments] (spellMore rest) rest := by
      refine .listOf [.drop .comma, .phrase .expression] (fun p hp => ?_)
        spellMore_append (fun _ => by simp [Slot.firsts]) (fun v hv k _ => ?_) hrest hafter
      · refine Grammar.mem_of_primaryRules ?_
        simp only [Grammar.primaryRules, List.mem_append, hp, true_or, or_true]
      · rw [spellMore_singleton]
        exact .drop ((hvs.2 v hv).1 k)
    exact .named (r := .arguments) (Grammar.mem_of_primaryRules (by simp [Grammar.primaryRules]))
      (.phrase (fun after _ => hvs.1.1 after) hmore) hmade

theorem regainedAs_call {vs : List Value} (h : RegainedAs .callChain v) (hv : v.isExpression)
    (hvs : ∀ v ∈ vs, RegainedAs .expression v ∧ v.isExpression)
    (hlen : vs.length ≤ argumentLimit) : RegainedAs .callChain (call v (list vs)) := by
  intro after
  by_cases hne : vs = []
  · subst hne
    have hrow : Regains after
        [.phrase .callChain, .drop .leftParen, .absent, .drop .rightParen] _ _ :=
      .phrase (fun after _ => h after) (.drop (.absent (by simp [Slot.firsts]) (.drop .done)))
    exact hrow.made (Grammar.mem_of_primaryRules (by simp [Grammar.primaryRules]))
      (ofRule_call.mpr ⟨[], .inl ⟨rfl, rfl⟩, hv, rfl⟩) (by simp [spell, spellListed])
  · have harguments : Regains .rightParen [.phrase .arguments] (spellListed (list vs)) [list vs] :=
      regains_arguments hne hvs hlen (by decide)
    have hrow : Regains after
        [.phrase .callChain, .drop .leftParen, .phrase .arguments, .drop .rightParen] _ _ :=
      .phrase (fun after _ => h after)
        (.drop (.phrase (fun k hk => List.mem_singleton.mp hk ▸ harguments) (.drop .done)))
    exact hrow.made (Grammar.mem_of_primaryRules (by simp [Grammar.primaryRules]))
      (ofRule_call.mpr ⟨vs, .inr rfl, hv, rfl⟩) (by simp [spell])

/-- A variable or a property, with a value assigned to it. -/
theorem regainedAs_assigned {target value : Value} (ht : RegainedAs .logicOr target)
    (h : RegainedAs .assignment value)
    (hspell : spell v = spell target ++ .fixed .equal :: spell value)
    (hv : ofRule .assign [target, value] = .ok v) : RegainedAs .assignment v := by
  intro after
  have hrow : Regains after [.phrase .logicOr, .drop .equal, .phrase .assignment] _ _ :=
    .phrase (fun after _ => ht after) (.drop (h after))
  exact hrow.made (Grammar.mem_of_operatorRules (by simp [Grammar.operatorRules])) hv hspell

theorem regainedAs_unary (hk : k ∈ [.bang, .minus]) (ho : IsOperator k operator)
    (h : RegainedAs .unary right) (hright : right.isExpression) :
    RegainedAs .unary (unary operator right) := by
  intro after
  have hrow : Regains after [.keep k, .phrase .unary] (spell operator ++ spell right)
      [operator, right] := by
    simp only [List.mem_cons, List.not_mem_nil, or_false] at hk
    rcases hk with rfl | rfl
    · exact .operator ho rfl (by decide) (by decide) (h after)
    · exact .operator ho rfl (by decide) (by decide) (h after)
  refine .named (r := .unary) (Grammar.mem_of_operatorRules ?_) hrow
    (ofRule_unary.mpr ⟨ho.isToken, hright, rfl⟩)
  simp only [List.mem_cons, List.not_mem_nil, or_false] at hk
  rcases hk with rfl | rfl <;> simp [Grammar.operatorRules]

theorem RegainedAs.callChain (h : RegainedAs .primary v) : RegainedAs .callChain v :=
  fun after => (h after).through (l := .other "call_chain")
    (Grammar.mem_of_primaryRules (by simp [Grammar.primaryRules, Grammar.oneOf]))

theorem RegainedAs.expression (h : RegainedAs .assignment v) : RegainedAs .expression v :=
  fun after => (h after).through (l := .other "expression")
    (Grammar.mem_of_operatorRules (by simp [Grammar.operatorRules, Grammar.oneOf]))

theorem strength_le (k : TokenKind) : k.strength ≤ 6 := by
  cases k <;> decide

theorem tightness_joinAt (ho : IsOperator k operator) (i : Nat) (left right : Value) :
    (joinAt i left operator right).tightness = k.strength := by
  obtain ⟨line, rfl⟩ := ho
  unfold joinAt
  split <;> rfl

/-- To be regained at its own level, and as a chain if it is one. -/
structure Regained (v : Value) : Prop where
  alone : RegainedAs (.atLevel v.tightness) v
  chained : ∀ k : TokenKind, k.strength ≠ 0 → v.tightness = k.strength → Chained k.strength v

/-- What is looser or tighter than all chains is none. -/
theorem RegainedAs.regained (h : RegainedAs (.atLevel i) v) (hv : v.tightness = i)
    (hi : i = 0 ∨ 6 < i) : Regained v := by
  subst hv
  refine ⟨h, fun k hk heq => ?_⟩
  have := strength_le k
  omega

theorem Chained.regained (h : Chained k.strength v) (hv : v.tightness = k.strength)
    (hk : k.strength ≠ 0) : Regained v := by
  constructor
  · rw [hv]
    exact h.regainedAs hk
  · intro j _ heq
    rwa [← heq, hv]

theorem Regained.expression (h : Regained v) : RegainedAs .expression v :=
  (h.alone.looser (Nat.zero_le _)).expression

/-- An operator with two operands makes a chain, or makes one longer. -/
theorem regained_joinAt (hk : k.strength ≠ 0) (ho : IsOperator k operator)
    (hleft : left.isExpression) (hright : right.isExpression) (hl : Regained left)
    (hr : Regained right) (hkl : k.strength ≤ left.tightness)
    (hkr : k.strength < right.tightness) :
    Regained (joinAt k.strength left operator right) := by
  refine Chained.regained ?_ (tightness_joinAt ho ..) hk
  rcases Nat.eq_or_lt_of_le hkl with heq | hlt
  · exact (hl.chained k hk heq.symm).more hk ho (hr.alone.looser hkr) hright
  · exact chained_of_operand hk ho (hl.alone.looser hlt) (hr.alone.looser hkr) hleft hright

/-- **An expression in normal form is regained.** -/
theorem NormalExpression.regained (h : NormalExpression v) : Regained v := by
  induction h with
  | literal h => exact h.regainedAs.callChain.regained (i := 8) rfl (by decide)
  | this =>
    have hword : RegainedAs .primary Value.this := fun after =>
      regains_word (r := .thisWord) (by simp [Grammar.primaryRules]) rfl
    exact hword.callChain.regained (i := 8) rfl (by decide)
  | variableName hname =>
    exact (regainedAs_variableName hname).callChain.regained (i := 8) rfl (by decide)
  | super hname => exact (regainedAs_super hname).callChain.regained (i := 8) rfl (by decide)
  | grouping he ih =>
    have hgrouping := regainedAs_grouping ih.expression he.isExpression
    exact hgrouping.callChain.regained (i := 8) rfl (by decide)
  | unary hk ho hright hle ih =>
    have hunary := regainedAs_unary hk ho (ih.alone.looser hle) hright.isExpression
    exact hunary.regained (i := 7) rfl (by decide)
  | @binary k left operator right hk ho hleft hright hkl hkr ihl ihr =>
    have hjoin : joinAt k.strength left operator right = .binary left operator right := by
      unfold joinAt
      rw [if_neg (by omega)]
    rw [← hjoin]
    exact regained_joinAt (by omega) ho hleft.isExpression hright.isExpression ihl ihr hkl hkr
  | @logical k left operator right hk ho hleft hright hkl hkr ihl ihr =>
    have hlevel : k.strength ≠ 0 ∧ k.strength ≤ 2 := by
      simp only [List.mem_cons, List.not_mem_nil, or_false] at hk
      rcases hk with rfl | rfl <;> decide
    have hjoin : joinAt k.strength left operator right = .logical left operator right := by
      unfold joinAt
      rw [if_pos hlevel.2]
    rw [← hjoin]
    exact regained_joinAt hlevel.1 ho hleft.isExpression hright.isExpression ihl ihr hkl hkr
  | call hcallee hle hlen hargs ih ihargs =>
    have hcall := regainedAs_call (ih.alone.looser hle) hcallee.isExpression
      (fun e he => ⟨(ihargs e he).expression, (hargs e he).isExpression⟩) hlen
    exact hcall.regained (i := 8) rfl (by decide)
  | get howner hle hname ih =>
    have hget := regainedAs_get (ih.alone.looser hle) howner.isExpression hname
    exact hget.regained (i := 8) rfl (by decide)
  | @set owner name value howner hle hname hvalue ih ihv =>
    have htarget : RegainedAs (.atLevel 8) (.get owner name) :=
      regainedAs_get (ih.alone.looser hle) howner.isExpression hname
    have hset := regainedAs_assigned (htarget.looser (i := 1) (by decide))
      (ihv.alone.looser (Nat.zero_le _)) (by simp [spell])
      (ofRule_assign.mpr ⟨hvalue.isExpression, .inr ⟨owner, name, rfl, rfl⟩⟩)
    exact hset.regained (i := 0) rfl (by decide)
  | @assign name value hname hvalue ih =>
    have htarget : RegainedAs (.atLevel 8) (.variableName name) :=
      (regainedAs_variableName hname).callChain
    have hassign := regainedAs_assigned (htarget.looser (i := 1) (by decide))
      (ih.alone.looser (Nat.zero_le _)) (by simp [spell])
      (ofRule_assign.mpr ⟨hvalue.isExpression, .inl ⟨name, rfl, rfl⟩⟩)
    exact hassign.regained (i := 0) rfl (by decide)

theorem NormalExpression.regainedAs (h : NormalExpression v) : RegainedAs .expression v :=
  h.regained.expression

end Value

end LoxForms
