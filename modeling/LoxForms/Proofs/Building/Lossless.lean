import LoxForms.Proofs.Building.Rows
import LoxForms.Proofs.Building.Spelled
import LoxForms.Proofs.Parsing.Finding
import Mathlib.Data.List.Basic
/-!
# Nothing is lost

A program without `for` loops spells out to the very tokens that it was read
from. What there is to show for each phrase is `Spelled`: the values that its
trees stand for are spelled as its tokens are. Each production accounts for its
phrase, one family of them after the other, and the rest is `Reads.row`.
-/

namespace LoxForms

open Building Sign Value

attribute [local simp] spell

/-! ## Lists of signs -/

theorem spellListed_of_listed {v : Value} {items : List Value} (h : Listed v items) :
    spellListed (.list items) = spellListed v := by
  rcases h with ⟨rfl, rfl⟩ | rfl
  · rfl
  · rfl

theorem spellListed_nil : spellListed .nil = [] := rfl

/-! ## What each phrase is to account for -/

/-- The phrases that stand for one value each, which is spelled by itself. -/
def Nonterminal.plain : Nonterminal → Bool
  | program | function | superclass | parameters | arguments | moreParameters | moreArguments
  | methods | forInitializer | declarations | orTail | andTail | equalityTail | comparisonTail
  | termTail | factorTail => false
  | _ => true

/-- How the values of a phrase are spelled. -/
def Spelled : Nonterminal → List Value → List Sign → Prop
  | .program, us, gs => ∃ v, us = [v] ∧ gs = spellBody v
  | .function, us, gs => ∃ name params body,
      us = [.functionDeclaration name params body] ∧
        gs = spellMethod (.functionDeclaration name params body)
  | .superclass, us, gs => ∃ name, us = [.variableName name] ∧ gs = [fixed .less] ++ spell name
  | .parameters, us, gs | .arguments, us, gs => ∃ v, us = [v] ∧ gs = spellListed v
  | .moreParameters, us, gs | .moreArguments, us, gs => gs = spellMore us
  | .methods, us, gs => gs = spellEach us
  | .declarations, us, gs | .orTail, us, gs | .andTail, us, gs | .equalityTail, us, gs
  | .comparisonTail, us, gs | .termTail, us, gs | .factorTail, us, gs => gs = spellAll us
  | .forInitializer, _, _ => True
  | _, us, gs => ∃ v, us = [v] ∧ v ≠ .nil ∧ gs = spell v

theorem spelled_plain {n : Nonterminal} (hn : n.plain) (us : List Value) (gs : List Sign) :
    Spelled n us gs ↔ ∃ v, us = [v] ∧ v ≠ .nil ∧ gs = spell v := by
  cases n <;> first | rfl | exact absurd hn (by decide)

/-- What becomes of a token of a kind. -/
def IsTokenOf (k : TokenKind) (v : Value) : Prop :=
  ∃ lexeme denoted line, v = .token k lexeme denoted line ∧
    (k = .number → ∃ x, denoted = .float x) ∧ (k = .string → ∃ s, denoted = .text s)

/-- How the tokens and the phrases of a text without `for` are spelled. -/
def spelling : Account Sign where
  keeps k v g := IsTokenOf k v ∧ spell v = [g]
  drops k g := k ≠ .forWord ∧ g = fixed k
  phrase := Spelled

/-- To hold of the values and the signs of every row of these slots. A row with
a `for` does not count. -/
def OnRow : List Slot → (List Value → List Sign → Prop) → Prop
  | [], P => P [] []
  | .keep k :: slots, P =>
    ∀ v, IsTokenOf k v → OnRow slots fun us gs => P (v :: us) (spell v ++ gs)
  | .drop .forWord :: _, _ => True
  | .drop k :: slots, P => OnRow slots fun us gs => P us (fixed k :: gs)
  | .absent :: slots, P => OnRow slots fun us gs => P (.nil :: us) gs
  | .phrase n :: slots, P =>
    match n.plain with
    | true => ∀ v, v ≠ .nil → OnRow slots fun us gs => P (v :: us) (spell v ++ gs)
    | false => ∀ us' gs', Spelled n us' gs' → OnRow slots fun us gs => P (us' ++ us) (gs' ++ gs)

variable {n : Nonterminal} {r : Rule} {slots : List Slot} {us : List Value} {v : Value}
variable {gs : List Sign}

theorem OnRow.of_row {P : List Value → List Sign → Prop} (h : OnRow slots P)
    (hrow : spelling.Row slots us gs) : P us gs := by
  induction slots generalizing P us gs with
  | nil =>
    obtain ⟨rfl, rfl⟩ := hrow
    exact h
  | cons s slots ih =>
    cases s with
    | keep k =>
      obtain ⟨v, g, us, gs, rfl, rfl, ⟨hv, hspell⟩, hrow⟩ := hrow
      have hrest := ih (h v hv) hrow
      rwa [hspell] at hrest
    | drop k =>
      obtain ⟨_, gs, rfl, ⟨hne, rfl⟩, hrow⟩ := hrow
      have hdrop : OnRow slots fun us gs => P us (fixed k :: gs) := by
        cases k <;> first | exact h | exact absurd rfl hne
      have hrest := ih hdrop hrow
      exact hrest
    | absent =>
      obtain ⟨us, rfl, hrow⟩ := hrow
      have habsent : OnRow slots fun us gs => P (.nil :: us) gs := h
      have hrest := ih habsent hrow
      exact hrest
    | phrase n =>
      obtain ⟨us', us, gs', gs, rfl, rfl, hphrase, hrow⟩ := hrow
      rw [OnRow] at h
      cases hn : n.plain with
      | true =>
        rw [hn] at h
        obtain ⟨v, rfl, hv, rfl⟩ := (spelled_plain hn us' gs').mp hphrase
        have hrest := ih (h v hv) hrow
        exact hrest
      | false =>
        rw [hn] at h
        have hrest := ih (h us' gs' hphrase) hrow
        exact hrest

/-! ## Families of productions -/

theorem closed_named (h : OnRow slots fun us gs => ∀ v, ofRule r us = .ok v → Spelled n [v] gs) :
    spelling.Closed (Grammar.named n r slots) := by
  intro us vs gs hrow hvalues
  obtain ⟨v, hv, rfl⟩ := Shape.values_node.mp hvalues
  exact h.of_row hrow v (ofNode_rule.mp hv)

/-- What stands for another phrase is spelled as that is. -/
theorem closed_oneOf {name : String} {ms : List Nonterminal} (hn : n.plain)
    (hms : ∀ m ∈ ms, m.plain) : ∀ p ∈ Grammar.oneOf n name ms, spelling.Closed p := by
  intro p hp
  obtain ⟨m, hm, rfl⟩ := List.mem_map.mp hp
  intro us vs gs hrow hvalues
  obtain ⟨us, _, gs, _, rfl, rfl, hphrase, rfl, rfl⟩ := hrow
  obtain ⟨v, rfl, hv, rfl⟩ := (spelled_plain (hms m hm) us gs).mp hphrase
  obtain rfl := Except.ok.inj hvalues
  exact (spelled_plain hn _ _).mpr ⟨v, rfl, hv, List.append_nil _⟩

/-- A list is spelled element by element, if an element at the end of it is
spelled at the end. -/
theorem closed_listOf {element : List Slot} {spellEvery : List Value → List Sign}
    (hn : ∀ us gs, Spelled n us gs ↔ gs = spellEvery us)
    (happend : ∀ us vs, spellEvery (us ++ vs) = spellEvery us ++ spellEvery vs)
    (helement : OnRow element fun us gs => gs = spellEvery us) :
    ∀ p ∈ Grammar.listOf n element, spelling.Closed p := by
  intro p hp
  rcases List.mem_pair.mp hp with rfl | rfl
  · intro us vs gs hrow hvalues
    obtain rfl := Except.ok.inj hvalues
    exact (hn us gs).mpr (helement.of_row hrow)
  · intro us vs gs hrow hvalues
    obtain rfl := Except.ok.inj hvalues
    obtain ⟨us₁, us₂, gs₁, gs₂, rfl, rfl, hfirst, hrest⟩ := hrow
    refine (hn _ _).mpr ?_
    rw [happend, (hn us₁ gs₁).mp hfirst, helement.of_row hrest]

/-! ### Chains of operators -/

/-- A chain is spelled from left to right, as it nests. -/
theorem spell_foldRest {join : Value → Value → Value → Value} {left : Value}
    (hjoin : ∀ l o r, join l o r ≠ .nil ∧ spell (join l o r) = spell l ++ spell o ++ spell r)
    (hleft : left ≠ .nil) (h : foldRest join left us = .ok v) :
    v ≠ .nil ∧ spell v = spell left ++ spellAll us := by
  induction left, us using foldRest.induct join with
  | case1 left =>
    obtain rfl := Except.ok.inj h
    exact ⟨hleft, (List.append_nil _).symm⟩
  | case2 left operator =>
    obtain ⟨_, -, h⟩ := bind_eq_ok.mp h
    exact absurd h (by simp)
  | case3 left operator right rest ih =>
    obtain ⟨-, -, h⟩ := foldRest_eq_ok.mp h
    obtain ⟨hv, hspell⟩ := ih _ _ (hjoin left operator right).1 h
    refine ⟨hv, ?_⟩
    rw [hspell, (hjoin left operator right).2, spellAll, spellAll]
    simp only [List.append_assoc]

theorem spell_fold {join : Value → Value → Value → Value}
    (hjoin : ∀ l o r, join l o r ≠ .nil ∧ spell (join l o r) = spell l ++ spell o ++ spell r)
    (h : fold join us = .ok v) : v ≠ .nil ∧ spell v = spellAll us := by
  cases us with
  | nil => exact absurd h (by simp [fold])
  | cons left rest =>
    obtain ⟨hleft, h⟩ := fold_eq_ok.mp h
    exact spell_foldRest hjoin (ne_nil_of_isExpression hleft) h

/-- The rules that make chains. -/
theorem spell_chain (hr : r ∈ [.logicOr, .logicAnd, .equality, .comparison, .term, .factor])
    (h : ofRule r us = .ok v) : v ≠ .nil ∧ spell v = spellAll us := by
  have hlogical : fold .logical us = .ok v → v ≠ .nil ∧ spell v = spellAll us :=
    spell_fold fun _ _ _ => ⟨by simp, rfl⟩
  have hbinary : fold .binary us = .ok v → v ≠ .nil ∧ spell v = spellAll us :=
    spell_fold fun _ _ _ => ⟨by simp, rfl⟩
  simp only [List.mem_cons, List.not_mem_nil, or_false] at hr
  rcases hr with rfl | rfl | rfl | rfl | rfl | rfl
  · exact hlogical h
  · exact hlogical h
  all_goals exact hbinary h

theorem row_operators {k : TokenKind} {operand : Nonterminal} (ho : operand.plain)
    (h : spelling.Row [.keep k, .phrase operand] us gs) : gs = spellAll us := by
  have hrow : OnRow [.keep k, .phrase operand] fun us gs => gs = spellAll us := by
    rw [OnRow]
    intro operator _
    rw [OnRow, ho]
    intro right _
    rw [OnRow]
    simp [spellAll]
  exact hrow.of_row h

theorem closed_level {operand tail : Nonterminal} {operators : List TokenKind}
    (hr : r ∈ [.logicOr, .logicAnd, .equality, .comparison, .term, .factor])
    (hn : n.plain) (ho : operand.plain)
    (ht : ∀ us gs, Spelled tail us gs ↔ gs = spellAll us) :
    ∀ p ∈ Grammar.level n r operand tail operators, spelling.Closed p := by
  -- a single operand stands for itself, and several are folded
  have hchain : ∀ us vs, (Shape.nodeUnlessSingle (.rule r)).values us = .ok vs → us ≠ [] →
      us.head? ≠ some .nil → Spelled n vs (spellAll us) := by
    intro us vs hvalues hne hhead
    by_cases hlen : us.length = 1
    · obtain ⟨u, rfl⟩ := List.length_eq_one_iff.mp hlen
      obtain rfl := Except.ok.inj hvalues
      refine (spelled_plain hn _ _).mpr ⟨u, rfl, by simpa using hhead, ?_⟩
      rw [spellAll, spellAll, List.append_nil]
    · rw [Shape.values_nodeUnlessSingle hlen] at hvalues
      obtain ⟨v, hv, rfl⟩ := Shape.values_node.mp hvalues
      obtain ⟨hv, hspell⟩ := spell_chain hr (ofNode_rule.mp hv)
      exact (spelled_plain hn _ _).mpr ⟨v, rfl, hv, hspell.symm⟩
  intro p hp
  simp only [Grammar.level, List.mem_append, List.mem_cons, List.not_mem_nil, or_false,
    List.mem_map] at hp
  rcases hp with ((rfl | rfl) | ⟨k, -, rfl⟩) | ⟨k, -, rfl⟩
  · intro us vs gs hrow hvalues
    obtain ⟨_, _, _, _, rfl, rfl, hfirst, _, _, _, _, rfl, rfl, hrest, rfl, rfl⟩ := hrow
    obtain ⟨v, rfl, hv, rfl⟩ := (spelled_plain ho _ _).mp hfirst
    obtain rfl := (ht _ _).mp hrest
    have hspelled := hchain _ vs hvalues (by simp) (by simpa using hv)
    rw [List.append_nil, spellAll_append, spellAll, spellAll, List.append_nil] at hspelled
    rw [List.append_nil]
    exact hspelled
  · intro us vs gs hrow hvalues
    obtain ⟨_, _, _, _, rfl, rfl, hfirst, rfl, rfl⟩ := hrow
    obtain ⟨v, rfl, hv, rfl⟩ := (spelled_plain ho _ _).mp hfirst
    have hspelled := hchain _ vs hvalues (by simp) (by simpa using hv)
    rw [List.append_nil, spellAll, spellAll, List.append_nil] at hspelled
    rwa [List.append_nil]
  · intro us vs gs hrow hvalues
    obtain rfl := Except.ok.inj hvalues
    exact (ht us gs).mpr (row_operators ho hrow)
  · intro us vs gs hrow hvalues
    obtain rfl := Except.ok.inj hvalues
    obtain ⟨us₁, us₂, gs₁, gs₂, rfl, rfl, hfirst, hrest⟩ := hrow
    refine (ht _ _).mpr ?_
    rw [spellAll_append, (ht us₁ gs₁).mp hfirst, row_operators ho hrest]

/-! ### Declarations -/

theorem closed_program :
    spelling.Closed (Grammar.named .program .start [.phrase .declarations]) ∧
    spelling.Closed (Grammar.named .program .start []) := by
  refine ⟨closed_named ?_, closed_named ?_⟩
  · rintro us _ rfl v hv
    obtain ⟨-, rfl⟩ := ofRule_start.mp hv
    exact ⟨_, rfl, by simp [spellBody]⟩
  · intro v hv
    obtain ⟨-, rfl⟩ := ofRule_start.mp hv
    exact ⟨_, rfl, rfl⟩

theorem closed_classDecl_of_superclass :
    spelling.Closed (Grammar.named .classDecl .classDecl
      [.drop .classWord, .keep .identifier, .phrase .superclass, .drop .leftBrace,
        .phrase .methods, .drop .rightBrace]) ∧
    spelling.Closed (Grammar.named .classDecl .classDecl
      [.drop .classWord, .keep .identifier, .phrase .superclass, .drop .leftBrace,
        .drop .rightBrace]) := by
  refine ⟨closed_named ?_, closed_named ?_⟩
  · rintro name - _ _ ⟨base, rfl, rfl⟩ methods _ rfl v hv
    obtain ⟨-, -, -, rfl⟩ := ofRule_classDecl.mp hv
    exact ⟨_, rfl, by simp, by simp [given, spellMethods]⟩
  · rintro name - _ _ ⟨base, rfl, rfl⟩ v hv
    obtain ⟨-, -, -, rfl⟩ := ofRule_classDecl.mp hv
    exact ⟨_, rfl, by simp, by simp [given, spellMethods, spellEach]⟩

theorem closed_classDecl :
    spelling.Closed (Grammar.named .classDecl .classDecl
      [.drop .classWord, .keep .identifier, .absent, .drop .leftBrace, .phrase .methods,
        .drop .rightBrace]) ∧
    spelling.Closed (Grammar.named .classDecl .classDecl
      [.drop .classWord, .keep .identifier, .absent, .drop .leftBrace, .drop .rightBrace]) := by
  refine ⟨closed_named ?_, closed_named ?_⟩
  · rintro name - methods _ rfl v hv
    obtain ⟨-, -, -, rfl⟩ := ofRule_classDecl.mp hv
    exact ⟨_, rfl, by simp, by simp [given, spellMethods]⟩
  · intro name _ v hv
    obtain ⟨-, -, -, rfl⟩ := ofRule_classDecl.mp hv
    exact ⟨_, rfl, by simp, by simp [given, spellMethods, spellEach]⟩

theorem closed_superclass :
    spelling.Closed (Grammar.named .superclass .superclass [.drop .less, .keep .identifier]) := by
  refine closed_named ?_
  intro name _ v hv
  obtain ⟨-, rfl⟩ := ofRule_superclass.mp hv
  exact ⟨_, rfl, by simp⟩

theorem closed_funDecl :
    spelling.Closed ⟨.funDecl, [.drop .funWord, .phrase .function],
      .nodeUnlessSingle (.other "fun_decl")⟩ := by
  intro us vs gs hrow hvalues
  have hfunction : OnRow [.drop .funWord, .phrase .function] fun us gs =>
      ∃ v, us = [v] ∧ v ≠ .nil ∧ gs = spell v := by
    rintro _ _ ⟨name, params, body, rfl, rfl⟩
    exact ⟨_, rfl, by simp, by simp [spellMethod]⟩
  obtain ⟨v, rfl, hv, rfl⟩ := hfunction.of_row hrow
  obtain rfl := Except.ok.inj hvalues
  exact ⟨v, rfl, hv, rfl⟩

theorem closed_function :
    spelling.Closed (Grammar.named .function .function
      [.keep .identifier, .drop .leftParen, .phrase .parameters, .drop .rightParen,
        .phrase .block]) ∧
    spelling.Closed (Grammar.named .function .function
      [.keep .identifier, .drop .leftParen, .absent, .drop .rightParen, .phrase .block]) := by
  refine ⟨closed_named ?_, closed_named ?_⟩
  · rintro name - _ _ ⟨params, rfl, rfl⟩ body - v hv
    obtain ⟨-, statements, rfl, items, hitems, rfl⟩ := ofRule_function.mp hv
    refine ⟨_, _, _, rfl, ?_⟩
    simp [spellMethod, functionSigns, spellListed_of_listed hitems]
  · intro name _ body _ v hv
    obtain ⟨-, statements, rfl, items, hitems, rfl⟩ := ofRule_function.mp hv
    refine ⟨_, _, _, rfl, ?_⟩
    simp [spellMethod, functionSigns, spellListed_of_listed hitems, spellListed_nil]

theorem closed_parameters :
    spelling.Closed (Grammar.named .parameters .parameters
      [.keep .identifier, .phrase .moreParameters]) ∧
    spelling.Closed (Grammar.named .parameters .parameters [.keep .identifier]) := by
  refine ⟨closed_named ?_, closed_named ?_⟩
  · rintro first - rest _ rfl v hv
    obtain ⟨-, -, rfl⟩ := ofRule_parameters.mp hv
    exact ⟨_, rfl, by simp [spellListed]⟩
  · intro first _ v hv
    obtain ⟨-, -, rfl⟩ := ofRule_parameters.mp hv
    exact ⟨_, rfl, by simp [spellListed, spellMore]⟩

theorem closed_varDecl :
    spelling.Closed (Grammar.named .varDecl .varDecl
      [.drop .varWord, .keep .identifier, .drop .equal, .phrase .expression, .drop .semicolon]) ∧
    spelling.Closed (Grammar.named .varDecl .varDecl
      [.drop .varWord, .keep .identifier, .absent, .drop .semicolon]) := by
  refine ⟨closed_named ?_, closed_named ?_⟩
  · intro name _ initializer hne v hv
    obtain ⟨-, -, rfl⟩ := ofRule_varDecl.mp hv
    exact ⟨_, rfl, by simp, by simp [given_of_ne hne]⟩
  · intro name _ v hv
    obtain ⟨-, -, rfl⟩ := ofRule_varDecl.mp hv
    exact ⟨_, rfl, by simp, by simp [given]⟩

theorem closed_declarationRules : ∀ p ∈ Grammar.declarationRules, spelling.Closed p := by
  simp only [Grammar.declarationRules, List.forall_mem_append, List.forall_mem_cons,
    List.not_mem_nil, IsEmpty.forall_iff, implies_true, and_true]
  refine ⟨⟨⟨⟨⟨⟨⟨closed_program, ?_⟩, ?_⟩, ?_⟩, ?_⟩, ?_⟩, ?_⟩, closed_varDecl⟩
  · refine closed_listOf (fun _ _ => Iff.rfl) spellAll_append ?_
    intro v _
    rw [OnRow]
    simp [spellAll_singleton]
  · exact closed_oneOf rfl (by decide)
  · exact ⟨closed_classDecl_of_superclass.1, closed_classDecl_of_superclass.2, closed_classDecl⟩
  · refine closed_listOf (fun _ _ => Iff.rfl) spellEach_append ?_
    rintro _ _ ⟨name, params, body, rfl, rfl⟩
    rfl
  · exact ⟨closed_superclass, closed_funDecl, closed_function.1, closed_function.2,
      closed_parameters⟩
  · refine closed_listOf (fun _ _ => Iff.rfl) spellMore_append ?_
    intro name _
    rw [OnRow]
    simp [spellMore_singleton]

/-! ### Statements -/

theorem closed_exprStmt :
    spelling.Closed (Grammar.named .exprStmt .exprStmt [.phrase .expression, .drop .semicolon]) := by
  refine closed_named ?_
  intro e _ v hv
  obtain ⟨-, rfl⟩ := ofRule_exprStmt.mp hv
  exact ⟨_, rfl, by simp, by simp⟩

/-- Where there is no `for`, no loop begins with one. -/
theorem closed_forStmt {slots : List Slot} :
    spelling.Closed (Grammar.named .forStmt .forStmt (.drop .forWord :: slots)) :=
  closed_named trivial

theorem closed_forInitializer {slots : List Slot} :
    spelling.Closed (Grammar.named .forInitializer .forInitializer slots) :=
  fun _ _ _ _ _ => trivial

theorem closed_ifStmt :
    spelling.Closed (Grammar.named .ifStmt .ifStmt
      [.drop .ifWord, .drop .leftParen, .phrase .expression, .drop .rightParen, .phrase .statement,
        .drop .elseWord, .phrase .statement]) ∧
    spelling.Closed (Grammar.named .ifStmt .ifStmt
      [.drop .ifWord, .drop .leftParen, .phrase .expression, .drop .rightParen, .phrase .statement,
        .absent]) := by
  refine ⟨closed_named ?_, closed_named ?_⟩
  · intro condition _ thenBranch _ elseBranch helse v hv
    obtain ⟨-, -, -, rfl⟩ := ofRule_ifStmt.mp hv
    exact ⟨_, rfl, by simp, by simp [given_of_ne helse]⟩
  · intro condition _ thenBranch _ v hv
    obtain ⟨-, -, -, rfl⟩ := ofRule_ifStmt.mp hv
    exact ⟨_, rfl, by simp, by simp [given]⟩

theorem closed_printStmt :
    spelling.Closed (Grammar.named .printStmt .printStmt
      [.drop .printWord, .phrase .expression, .drop .semicolon]) := by
  refine closed_named ?_
  intro e _ v hv
  obtain ⟨-, rfl⟩ := ofRule_printStmt.mp hv
  exact ⟨_, rfl, by simp, by simp⟩

theorem closed_returnStmt :
    spelling.Closed (Grammar.named .returnStmt .returnStmt
      [.drop .returnWord, .phrase .expression, .drop .semicolon]) ∧
    spelling.Closed (Grammar.named .returnStmt .returnStmt
      [.drop .returnWord, .absent, .drop .semicolon]) := by
  refine ⟨closed_named ?_, closed_named ?_⟩
  · intro e _ v hv
    obtain ⟨-, rfl⟩ := ofRule_returnStmt.mp hv
    exact ⟨_, rfl, by simp, by simp⟩
  · intro v hv
    obtain ⟨-, rfl⟩ := ofRule_returnStmt.mp hv
    exact ⟨_, rfl, by simp, by simp⟩

theorem closed_whileStmt :
    spelling.Closed (Grammar.named .whileStmt .whileStmt
      [.drop .whileWord, .drop .leftParen, .phrase .expression, .drop .rightParen,
        .phrase .statement]) := by
  refine closed_named ?_
  intro condition _ body _ v hv
  obtain ⟨-, -, rfl⟩ := ofRule_whileStmt.mp hv
  exact ⟨_, rfl, by simp, by simp⟩

theorem closed_block :
    spelling.Closed (Grammar.named .block .block
      [.drop .leftBrace, .phrase .declarations, .drop .rightBrace]) ∧
    spelling.Closed (Grammar.named .block .block [.drop .leftBrace, .drop .rightBrace]) := by
  refine ⟨closed_named ?_, closed_named ?_⟩
  · rintro statements _ rfl v hv
    obtain ⟨-, rfl⟩ := ofRule_block.mp hv
    exact ⟨_, rfl, by simp, by simp [spellBody]⟩
  · intro v hv
    obtain ⟨-, rfl⟩ := ofRule_block.mp hv
    exact ⟨_, rfl, by simp, by simp [spellBody, spellAll]⟩

theorem closed_statementRules : ∀ p ∈ Grammar.statementRules, spelling.Closed p := by
  simp only [Grammar.statementRules, List.forall_mem_append, List.forall_mem_cons,
    List.not_mem_nil, IsEmpty.forall_iff, implies_true, and_true]
  exact ⟨closed_oneOf rfl (by decide), closed_exprStmt, closed_forStmt, closed_forStmt,
    closed_forStmt, closed_forStmt, closed_forInitializer, closed_forInitializer,
    closed_forInitializer, closed_ifStmt.1, closed_ifStmt.2, closed_printStmt,
    closed_returnStmt.1, closed_returnStmt.2, closed_whileStmt, closed_block⟩

/-! ### Expressions -/

theorem closed_assign :
    spelling.Closed (Grammar.named .assignment .assign
      [.phrase .logicOr, .drop .equal, .phrase .assignment]) := by
  refine closed_named ?_
  intro target _ value _ v hv
  obtain ⟨-, ⟨name, rfl, rfl⟩ | ⟨owner, name, rfl, rfl⟩⟩ := ofRule_assign.mp hv
  · exact ⟨_, rfl, by simp, by simp⟩
  · exact ⟨_, rfl, by simp, by simp⟩

theorem closed_unary {k : TokenKind} :
    spelling.Closed (Grammar.named .unary .unary [.keep k, .phrase .unary]) := by
  refine closed_named ?_
  intro operator _ right _ v hv
  obtain ⟨-, -, rfl⟩ := ofRule_unary.mp hv
  exact ⟨_, rfl, by simp, by simp⟩

theorem closed_unary_callChain :
    spelling.Closed ⟨.unary, [.phrase .callChain], .nodeUnlessSingle (.rule .unary)⟩ := by
  intro us vs gs hrow hvalues
  have hone : OnRow [.phrase .callChain] fun us gs => ∃ v, us = [v] ∧ v ≠ .nil ∧ gs = spell v :=
    fun v hv => ⟨v, rfl, hv, List.append_nil _⟩
  obtain ⟨v, rfl, hv, rfl⟩ := hone.of_row hrow
  obtain rfl := Except.ok.inj hvalues
  exact ⟨v, rfl, hv, rfl⟩

theorem closed_operatorRules : ∀ p ∈ Grammar.operatorRules, spelling.Closed p := by
  simp only [Grammar.operatorRules, List.forall_mem_append, List.forall_mem_cons,
    List.not_mem_nil, IsEmpty.forall_iff, implies_true, and_true, and_assoc]
  refine ⟨closed_oneOf rfl (by decide), closed_assign, closed_oneOf rfl (by decide), ?_, ?_, ?_, ?_,
    ?_, ?_, closed_unary, closed_unary, closed_unary_callChain⟩
  all_goals exact closed_level (by decide) rfl rfl fun _ _ => Iff.rfl

theorem closed_call :
    spelling.Closed (Grammar.named .callChain .call
      [.phrase .callChain, .drop .leftParen, .phrase .arguments, .drop .rightParen]) ∧
    spelling.Closed (Grammar.named .callChain .call
      [.phrase .callChain, .drop .leftParen, .absent, .drop .rightParen]) := by
  refine ⟨closed_named ?_, closed_named ?_⟩
  · rintro callee - _ _ ⟨arguments, rfl, rfl⟩ v hv
    obtain ⟨items, hitems, -, rfl⟩ := ofRule_call.mp hv
    exact ⟨_, rfl, by simp, by simp [spellListed_of_listed hitems]⟩
  · intro callee _ v hv
    obtain ⟨items, hitems, -, rfl⟩ := ofRule_call.mp hv
    exact ⟨_, rfl, by simp, by simp [spellListed_of_listed hitems, spellListed_nil]⟩

theorem closed_get :
    spelling.Closed (Grammar.named .callChain .get
      [.phrase .callChain, .drop .dot, .keep .identifier]) := by
  refine closed_named ?_
  intro owner _ name _ v hv
  obtain ⟨-, -, rfl⟩ := ofRule_get.mp hv
  exact ⟨_, rfl, by simp, by simp⟩

theorem closed_arguments :
    spelling.Closed (Grammar.named .arguments .arguments
      [.phrase .expression, .phrase .moreArguments]) ∧
    spelling.Closed (Grammar.named .arguments .arguments [.phrase .expression]) := by
  refine ⟨closed_named ?_, closed_named ?_⟩
  · rintro first - rest _ rfl v hv
    obtain ⟨-, -, rfl⟩ := ofRule_arguments.mp hv
    exact ⟨_, rfl, by simp [spellListed]⟩
  · intro first _ v hv
    obtain ⟨-, -, rfl⟩ := ofRule_arguments.mp hv
    exact ⟨_, rfl, by simp [spellListed, spellMore]⟩

/-- The words that stand for a value each. -/
theorem closed_word {k : TokenKind} (hne : v ≠ .nil) (hspell : spell v = [fixed k])
    (hr : ∀ us, ofRule r us = .ok v) : spelling.Closed (Grammar.named .primary r [.drop k]) := by
  intro us vs gs hrow hvalues
  obtain ⟨g, gs, rfl, ⟨-, rfl⟩, -, rfl⟩ := hrow
  obtain ⟨u, hu, rfl⟩ := Shape.values_node.mp hvalues
  obtain rfl := Except.ok.inj ((hr us).symm.trans (ofNode_rule.mp hu))
  exact ⟨v, rfl, hne, hspell.symm⟩

theorem closed_words :
    spelling.Closed (Grammar.named .primary .trueLiteral [.drop .trueWord]) ∧
    spelling.Closed (Grammar.named .primary .falseLiteral [.drop .falseWord]) ∧
    spelling.Closed (Grammar.named .primary .nilLiteral [.drop .nilWord]) ∧
    spelling.Closed (Grammar.named .primary .thisWord [.drop .thisWord]) :=
  ⟨closed_word (by simp) rfl fun _ => rfl, closed_word (by simp) rfl fun _ => rfl,
    closed_word (by simp) rfl fun _ => rfl, closed_word (by simp) rfl fun _ => rfl⟩

/-- A literal is spelled by its value. -/
theorem closed_number :
    spelling.Closed (Grammar.named .primary .number [.keep .number]) := by
  refine closed_named ?_
  rintro _ ⟨lexeme, denoted, line, rfl, hnumber, -⟩ v hv
  obtain ⟨x, rfl⟩ := hnumber rfl
  obtain ⟨_, _, _, _, heq, rfl⟩ := ofRule_number.mp hv
  cases heq
  exact ⟨_, rfl, by simp, by simp [ofToken]⟩

theorem closed_string :
    spelling.Closed (Grammar.named .primary .string [.keep .string]) := by
  refine closed_named ?_
  rintro _ ⟨lexeme, denoted, line, rfl, -, hstring⟩ v hv
  obtain ⟨s, rfl⟩ := hstring rfl
  obtain ⟨_, _, _, _, heq, rfl⟩ := ofRule_string.mp hv
  cases heq
  exact ⟨_, rfl, by simp, by simp [ofToken]⟩

theorem closed_variableName :
    spelling.Closed (Grammar.named .primary .variableName [.keep .identifier]) := by
  refine closed_named ?_
  intro name _ v hv
  obtain ⟨-, rfl⟩ := ofRule_variableName.mp hv
  exact ⟨_, rfl, by simp, by simp⟩

theorem closed_grouping :
    spelling.Closed (Grammar.named .primary .grouping
      [.drop .leftParen, .phrase .expression, .drop .rightParen]) := by
  refine closed_named ?_
  intro e _ v hv
  obtain ⟨-, rfl⟩ := ofRule_grouping.mp hv
  exact ⟨_, rfl, by simp, by simp⟩

theorem closed_superExpr :
    spelling.Closed (Grammar.named .primary .superExpr
      [.drop .superWord, .drop .dot, .keep .identifier]) := by
  refine closed_named ?_
  intro name _ v hv
  obtain ⟨-, rfl⟩ := ofRule_superExpr.mp hv
  exact ⟨_, rfl, by simp, by simp⟩

theorem closed_primaryRules : ∀ p ∈ Grammar.primaryRules, spelling.Closed p := by
  simp only [Grammar.primaryRules, List.forall_mem_append, List.forall_mem_cons,
    List.not_mem_nil, IsEmpty.forall_iff, implies_true, and_true, and_assoc]
  refine ⟨closed_oneOf rfl (by decide), closed_call.1, closed_call.2, closed_get, closed_arguments.1,
    closed_arguments.2, ?_, closed_words.1, closed_words.2.1, closed_words.2.2.1, closed_words.2.2.2,
    closed_number, closed_string, closed_variableName, closed_grouping, closed_superExpr⟩
  refine closed_listOf (fun _ _ => Iff.rfl) spellMore_append ?_
  intro e _
  rw [OnRow]
  simp [spellMore_singleton]

theorem closed_productions : ∀ p ∈ Grammar.productions, spelling.Closed p := by
  intro p hp
  rcases Grammar.mem_productions.mp hp with hp | hp | hp | hp
  · exact closed_declarationRules p hp
  · exact closed_statementRules p hp
  · exact closed_operatorRules p hp
  · exact closed_primaryRules p hp

/-! ## Whole programs -/

/-- A token whose kind has a spelling counts as any other of its kind. -/
theorem Lexeme.sign_of_found {l : Lexeme} (h : Found l.kind l.text.toList)
    (hk : l.kind.spelling?.isSome) : l.sign = fixed l.kind := by
  obtain ⟨t, ht⟩ := Option.isSome_iff_exists.mp hk
  have htext : l.text = .ofList t := by
    rw [← h.eq_of_spelling ht, String.ofList_toList]
  rw [fixed, ht, Option.getD_some, ← htext]
  unfold sign
  split
  · rename_i hkind
    exact absurd ht (by simp [hkind, TokenKind.spelling?])
  · rename_i hkind
    exact absurd ht (by simp [hkind, TokenKind.spelling?])
  · rfl

theorem Value.spellBody_eq (v : Value) : spellBody v = spellAll (Program.statements v) := by
  cases v <;> rfl

namespace Program

theorem isTokenOf_of_readLexeme {l : Lexeme} {v : Value} (h : readLexeme l = .ok v) :
    IsTokenOf l.kind v := by
  obtain ⟨-, denoted, hdenoted, rfl⟩ := readLexeme_eq_ok.mp h
  refine ⟨l.text, denoted, l.first.line, rfl, fun hk => ?_, fun hk => ?_⟩
  · rw [Lexeme.Denotes, hk] at hdenoted
    obtain ⟨x, -, hx⟩ := hdenoted
    exact ⟨x, hx⟩
  · rw [Lexeme.Denotes, hk] at hdenoted
    exact ⟨_, hdenoted⟩

theorem spell_of_readLexeme {l : Lexeme} {v : Value} (h : readLexeme l = .ok v) :
    spell v = [l.sign] := by
  obtain ⟨-, denoted, hdenoted, rfl⟩ := readLexeme_eq_ok.mp h
  rw [spell, Lexeme.sign_of_denotes hdenoted]

/-- **Nothing is lost.** If a text without `for` has a program, the program
spells out to the lexemes of the text: none of them is dropped or duplicated,
and none is in another place. -/
theorem spellAll_of_ofText {text : String} {statements : List Value}
    (h : ofText text = .ok statements) : ∃ parsed, Parsed.ofText text = .ok parsed ∧
      ((∀ l ∈ parsed.lexemes, l.kind ≠ .forWord) →
        spellAll statements = parsed.lexemes.map Lexeme.sign) := by
  obtain ⟨parsed, hparsed, v, hv, rfl⟩ := ofText_eq_ok.mp h
  refine ⟨parsed, hparsed, fun hfor => ?_⟩
  have hrow : spelling.Row [.phrase .program] [v] (parsed.lexemes.map Lexeme.sign) := by
    refine (Parsed.reads hparsed).row closed_productions (by decide) (fun l _ u hu => ?_)
      (fun l hl hfixed => ?_) (Tree.buildAll_cons_eq_ok.mpr ⟨v, hv, [], rfl, rfl⟩)
    · exact ⟨isTokenOf_of_readLexeme hu, spell_of_readLexeme hu⟩
    · exact ⟨hfor l hl, Lexeme.sign_of_found (Parsed.found hparsed l hl) hfixed⟩
  obtain ⟨_, _, _, _, hv, hsigns, ⟨u, rfl, rfl⟩, rfl, rfl⟩ := hrow
  obtain rfl := (List.cons.inj hv).1
  rw [hsigns, List.append_nil, spellBody_eq]

/-- However a number is written, what counts of it is its value. -/
theorem spellAll_of_ofText_number : ∃ statements,
    ofText "if (!a) b.c = 1.50;" = .ok statements ∧
    spellAll statements = [fixed .ifWord, fixed .leftParen, fixed .bang, .word .identifier "a",
      fixed .rightParen, .word .identifier "b", fixed .dot, .word .identifier "c", fixed .equal,
      .number (Double.ofText? "1.5"), fixed .semicolon] := by
  have hread : (Parsed.ofText "if (!a) b.c = 1.50;").toOption.map (fun parsed =>
      (parsed.lexemes.all (·.kind != .forWord), parsed.lexemes.map Lexeme.sign)) =
      some (true, [fixed .ifWord, fixed .leftParen, fixed .bang, .word .identifier "a",
        fixed .rightParen, .word .identifier "b", fixed .dot, .word .identifier "c", fixed .equal,
        .number (Double.ofText? "1.5"), fixed .semicolon]) := by decide +kernel
  have hmade : (ofText "if (!a) b.c = 1.50;").toOption.isSome := by decide +kernel
  cases hprogram : ofText "if (!a) b.c = 1.50;" with
  | error e => rw [hprogram] at hmade; exact absurd hmade (by simp [Except.toOption])
  | ok statements =>
    obtain ⟨parsed, hparsed, hspell⟩ := spellAll_of_ofText hprogram
    rw [hparsed] at hread
    obtain ⟨hfor, hsigns⟩ := Prod.mk.inj (Option.some.inj hread)
    refine ⟨statements, rfl, ?_⟩
    rw [hspell fun l hl => by simpa using List.all_eq_true.mp hfor l hl, hsigns]

end Program

end LoxForms
