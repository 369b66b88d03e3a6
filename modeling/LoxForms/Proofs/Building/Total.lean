import LoxForms.Proofs.Building.Lines
import LoxForms.Proofs.Building.Made
import Mathlib.Data.List.Basic
/-!
# Every tree of a text is built or forbidden

No rule is ever given children that it has no place for. What is to be shown of
each production is `Total`: whatever values its symbols have, it makes of them
what fits its phrase, or refuses them as forbidden. Each production is total, one
family of them after the other, and `Reads.comes` carries this over to all that is
read.
-/

namespace LoxForms

open Building Value

/-! ## Results -/

/-- To refuse something as forbidden. -/
def Refusal.Forbids (r : Refusal) : Prop := ∃ v, r = .violation v

/-- To stand for no program only because something is forbidden. -/
def BuildError.Forbids (e : BuildError) : Prop := ∃ r v, e = .refused r (.violation v)

/-- To come to a result of some sort, or to be forbidden. -/
def Comes {ε α : Type} (forbids : ε → Prop) (x : Except ε α) (P : α → Prop) : Prop :=
  (∃ a, x = .ok a ∧ P a) ∨ ∃ e, x = .error e ∧ forbids e

namespace Comes

variable {ε α β : Type} {forbids : ε → Prop} {x : Except ε α} {P P' : α → Prop} {Q : β → Prop}

theorem of_ok {a : α} (hx : x = .ok a) (h : P a) : Comes forbids x P := .inl ⟨a, hx, h⟩

theorem mono (h : Comes forbids x P) (hP : ∀ a, P a → P' a) : Comes forbids x P' := by
  rcases h with ⟨a, hx, ha⟩ | h
  · exact of_ok hx (hP a ha)
  · exact .inr h

theorem bind {f : α → Except ε β} (h : Comes forbids x P)
    (hf : ∀ a, P a → Comes forbids (f a) Q) : Comes forbids (x >>= f) Q := by
  rcases h with ⟨a, rfl, ha⟩ | ⟨e, rfl, he⟩
  · exact hf a ha
  · exact .inr ⟨e, rfl, he⟩

end Comes

variable {T : Terms} {k : TokenKind} {n : Nonterminal} {r : Rule} {slots : List Slot}
variable {v : Value} {us vs : List Value} {ks : List TokenKind}

/-! ## Rows -/

/-- What a token of a kind is made of. -/
def IsTokenFor (T : Terms) (k : TokenKind) (v : Value) : Prop :=
  ∃ lexeme denoted line, v = token k lexeme denoted line ∧ Lexeme.Found k lexeme.toList ∧
    if k ∈ [.number, .string] then T.denoted denoted else denoted = nil

theorem IsTokenFor.isWordToken (h : IsTokenFor T .identifier v) : IsWordToken v := by
  obtain ⟨lexeme, denoted, line, rfl, hfound, hdenoted⟩ := h
  rw [if_neg (by decide)] at hdenoted
  obtain hspelled | ⟨-, hword⟩ | ⟨hk, -⟩ | ⟨hk, -⟩ := hfound
  · exact absurd hspelled (by simp [TokenKind.spelling?])
  · exact ⟨lexeme, line, hword, by rw [hdenoted]⟩
  · exact absurd hk (by decide)
  · exact absurd hk (by decide)

theorem IsTokenFor.isOperator (h : IsTokenFor T k v) (hk : k.spelling?.isSome) :
    IsOperator k v := by
  obtain ⟨lexeme, denoted, line, rfl, hfound, hdenoted⟩ := h
  obtain ⟨t, ht⟩ := Option.isSome_iff_exists.mp hk
  have hlexeme : lexeme = .ofList t := by rw [← hfound.eq_of_spelling ht, String.ofList_toList]
  have hplain : k ∉ [.number, .string] := by
    intro hmem
    simp only [List.mem_cons, List.not_mem_nil, or_false] at hmem
    rcases hmem with rfl | rfl <;> exact absurd hk (by decide)
  rw [if_neg hplain] at hdenoted
  exact ⟨line, by rw [hlexeme, hdenoted, ht, Option.getD_some]⟩

/-- To hold of the values of these slots, whatever they are. -/
def EachRow (T : Terms) : List Slot → (List Value → Prop) → Prop
  | [], P => P []
  | .keep k :: slots, P => ∀ v, IsTokenFor T k v → EachRow T slots fun us => P (v :: us)
  | .drop _ :: slots, P => EachRow T slots P
  | .absent :: slots, P => EachRow T slots fun us => P (nil :: us)
  | .phrase n :: slots, P => ∀ vs, Fits T n vs → EachRow T slots fun us => P (vs ++ us)

theorem EachRow.mono {P Q : List Value → Prop} (h : EachRow T slots P) (hPQ : ∀ us, P us → Q us) :
    EachRow T slots Q := by
  induction slots generalizing P Q with
  | nil => exact hPQ [] h
  | cons s slots ih =>
    cases s with
    | keep k =>
      intro v hv
      exact ih (h v hv) fun us => hPQ (v :: us)
    | drop k =>
      have hrest : EachRow T slots P := h
      exact ih hrest hPQ
    | absent =>
      have hrest : EachRow T slots fun us => P (nil :: us) := h
      exact ih hrest fun us => hPQ (nil :: us)
    | phrase n =>
      intro vs hvs
      exact ih (h vs hvs) fun us => hPQ (vs ++ us)

/-- To make what fits of all values, or to refuse them as forbidden. -/
def Total (T : Terms) (p : Production) : Prop :=
  EachRow T p.slots fun us => Comes BuildError.Forbids (p.shape.values us) (Fits T p.phrase)

/-! ## Families of productions -/

theorem comes_node (h : Comes Refusal.Forbids (ofRule r us) fun v => Fits T n [v]) :
    Comes BuildError.Forbids ((Shape.node (.rule r)).values us) (Fits T n) := by
  rcases h with ⟨v, hv, hfits⟩ | ⟨_, hr, violation, rfl⟩
  · exact .inl ⟨[v], Shape.values_node.mpr ⟨v, ofNode_rule.mpr hv, rfl⟩, hfits⟩
  · refine .inr ⟨.refused r (.violation violation), ?_, r, violation, rfl⟩
    rw [Shape.values, ofNode, hr]
    rfl

theorem total_named
    (h : EachRow T slots fun us => Comes Refusal.Forbids (ofRule r us) fun v => Fits T n [v]) :
    Total T (Grammar.named n r slots) :=
  h.mono fun _ => comes_node

/-- What stands for another phrase fits if that does. -/
theorem total_oneOf {name : String} {ms : List Nonterminal}
    (hms : ∀ m ∈ ms, ∀ us, Fits T m us → ∃ v, us = [v] ∧ Fits T n [v]) :
    ∀ p ∈ Grammar.oneOf n name ms, Total T p := by
  intro p hp
  obtain ⟨m, hm, rfl⟩ := List.mem_map.mp hp
  intro us hus
  obtain ⟨v, rfl, hv⟩ := hms m hm us hus
  exact .of_ok rfl hv

/-- What fits in one place also fits where the same is asked of it. -/
theorem single {P : Value → Prop} (us : List Value) (h : ∃ v, us = [v] ∧ P v) :
    ∃ v, us = [v] ∧ ∃ u, [v] = [u] ∧ P u := by
  obtain ⟨v, rfl, hv⟩ := h
  exact ⟨v, rfl, v, rfl, hv⟩

/-- A list fits if each element at the end of it does. -/
theorem total_listOf {element : List Slot} {P : List Value → Prop} (hn : ∀ us, Fits T n us ↔ P us)
    (happend : ∀ us vs, P us → P vs → P (us ++ vs)) (helement : EachRow T element P) :
    ∀ p ∈ Grammar.listOf n element, Total T p := by
  intro p hp
  rcases List.mem_pair.mp hp with rfl | rfl
  · exact helement.mono fun us hus => .of_ok rfl ((hn us).mpr hus)
  · intro vs hvs
    exact helement.mono fun us hus =>
      .of_ok rfl ((hn (vs ++ us)).mpr (happend vs us ((hn vs).mp hvs) hus))

/-! ### Chains of operators -/

theorem exists_foldRest {join : Value → Value → Value → Value} {left : Value}
    (hjoin : ∀ {l o r}, IsOperatorOf ks o → MadeExpression T l → MadeExpression T r →
      MadeExpression T (join l o r))
    (hleft : MadeExpression T left) (h : IsTail T ks us) :
    ∃ v, foldRest join left us = .ok v ∧ MadeExpression T v := by
  induction h generalizing left with
  | nil => exact ⟨left, rfl, hleft⟩
  | @cons operator right rest ho hr _ ih =>
    obtain ⟨v, hv, hmade⟩ := ih (hjoin ho hleft hr)
    exact ⟨v, foldRest_eq_ok.mpr ⟨ho.isToken, hr.isExpression, hv⟩, hmade⟩

/-- A level of operators: what it takes of the rule that makes the chain, and of
the phrases for an operand and for the rest of the chain. -/
theorem total_level {operand tail : Nonterminal} {operators : List TokenKind}
    {join : Value → Value → Value → Value} (hrule : ∀ us, ofRule r us = fold join us)
    (hjoin : ∀ {l o r}, IsOperatorOf ks o → MadeExpression T l → MadeExpression T r →
      MadeExpression T (join l o r))
    (hn : ∀ us, Fits T n us ↔ ∃ e, us = [e] ∧ MadeExpression T e)
    (ho : ∀ us, Fits T operand us ↔ ∃ e, us = [e] ∧ MadeExpression T e)
    (ht : ∀ us, Fits T tail us ↔ IsTail T ks us)
    (hoperators : ∀ k ∈ operators, k ∈ ks ∧ k.spelling?.isSome) :
    ∀ p ∈ Grammar.level n r operand tail operators, Total T p := by
  have hrest : ∀ k ∈ operators, EachRow T [.keep k, .phrase operand] (IsTail T ks) := by
    intro k hk o hoperator us hus
    obtain ⟨hmem, hspelled⟩ := hoperators k hk
    obtain ⟨e, rfl, he⟩ := (ho us).mp hus
    exact .cons ⟨k, hmem, hoperator.isOperator hspelled⟩ he .nil
  have hchain : ∀ e us, MadeExpression T e → IsTail T ks us → us ≠ [] →
      Comes BuildError.Forbids ((Shape.nodeUnlessSingle (.rule r)).values (e :: us)) (Fits T n) := by
    intro e us he hus hne
    rw [Shape.values_nodeUnlessSingle (by simpa using hne)]
    obtain ⟨v, hv, hmade⟩ := exists_foldRest hjoin he hus
    refine comes_node (.of_ok (a := v) ?_ ((hn [v]).mpr ⟨v, rfl, hmade⟩))
    rw [hrule]
    exact fold_eq_ok.mpr ⟨he.isExpression, hv⟩
  have hsingle : ∀ e, MadeExpression T e →
      Comes BuildError.Forbids ((Shape.nodeUnlessSingle (.rule r)).values [e]) (Fits T n) :=
    fun e he => .of_ok (Shape.values_single e) ((hn [e]).mpr ⟨e, rfl, he⟩)
  intro p hp
  simp only [Grammar.level, List.mem_append, List.mem_cons, List.not_mem_nil, or_false,
    List.mem_map] at hp
  rcases hp with ((rfl | rfl) | ⟨k, hk, rfl⟩) | ⟨k, hk, rfl⟩
  · intro us hus vs hvs
    obtain ⟨e, rfl, he⟩ := (ho us).mp hus
    show Comes _ (Shape.values _ ([e] ++ (vs ++ []))) _
    rw [List.append_nil, List.singleton_append]
    by_cases hne : vs = []
    · subst hne
      exact hsingle e he
    · exact hchain e vs he ((ht vs).mp hvs) hne
  · intro us hus
    obtain ⟨e, rfl, he⟩ := (ho us).mp hus
    exact hsingle e he
  · exact (hrest k hk).mono fun us hus => .of_ok rfl ((ht us).mpr hus)
  · intro vs hvs
    exact (hrest k hk).mono fun us hus => .of_ok rfl ((ht _).mpr (((ht vs).mp hvs).append hus))

/-! ### Declarations -/

theorem total_program : Total T (Grammar.named .program .start [.phrase .declarations]) ∧
    Total T (Grammar.named .program .start []) := by
  refine ⟨total_named fun us hus => ?_, total_named ?_⟩
  · show Comes _ (ofRule .start (us ++ [])) _
    rw [List.append_nil]
    exact .of_ok (ofRule_start.mpr ⟨fun s hs => (hus s hs).isStatement, rfl⟩) ⟨us, rfl, hus⟩
  · exact .of_ok rfl ⟨[], rfl, List.forall_mem_nil _⟩

theorem fits_classDecl {name base : Value} (hname : IsWordToken name) (hbase : IsBase base)
    (hus : Fits T .methods us) : Comes Refusal.Forbids (ofRule .classDecl (name :: base :: us))
      fun v => Fits T .classDecl [v] := by
  have hplace : base = nil ∨ ∃ b, base = variableName b := by
    rcases hbase with h | ⟨b, h, -⟩
    · exact .inl h
    · exact .inr ⟨b, h⟩
  exact .of_ok (ofRule_classDecl.mpr ⟨hname.isToken, hplace, hus.1, rfl⟩)
    ⟨_, rfl, .classDeclaration hname hbase hus.1 hus.2⟩

theorem total_classDecl_of_superclass :
    Total T (Grammar.named .classDecl .classDecl
      [.drop .classWord, .keep .identifier, .phrase .superclass, .drop .leftBrace,
        .phrase .methods, .drop .rightBrace]) ∧
    Total T (Grammar.named .classDecl .classDecl
      [.drop .classWord, .keep .identifier, .phrase .superclass, .drop .leftBrace,
        .drop .rightBrace]) := by
  refine ⟨total_named ?_, total_named ?_⟩
  · rintro name hname _ ⟨base, rfl, hbase⟩ us hus
    show Comes _ (ofRule .classDecl (name :: variableName base :: (us ++ []))) _
    rw [List.append_nil]
    exact fits_classDecl hname.isWordToken (.inr ⟨base, rfl, hbase⟩) hus
  · rintro name hname _ ⟨base, rfl, hbase⟩
    exact fits_classDecl hname.isWordToken (.inr ⟨base, rfl, hbase⟩) ⟨by simp, by simp⟩

theorem total_classDecl :
    Total T (Grammar.named .classDecl .classDecl
      [.drop .classWord, .keep .identifier, .absent, .drop .leftBrace, .phrase .methods,
        .drop .rightBrace]) ∧
    Total T (Grammar.named .classDecl .classDecl
      [.drop .classWord, .keep .identifier, .absent, .drop .leftBrace, .drop .rightBrace]) := by
  refine ⟨total_named ?_, total_named ?_⟩
  · intro name hname us hus
    show Comes _ (ofRule .classDecl (name :: nil :: (us ++ []))) _
    rw [List.append_nil]
    exact fits_classDecl hname.isWordToken (.inl rfl) hus
  · intro name hname
    exact fits_classDecl hname.isWordToken (.inl rfl) ⟨by simp, by simp⟩

theorem total_superclass :
    Total T (Grammar.named .superclass .superclass [.drop .less, .keep .identifier]) := by
  refine total_named fun name hname => ?_
  exact .of_ok (ofRule_superclass.mpr ⟨hname.isWordToken.isToken, rfl⟩)
    ⟨name, rfl, hname.isWordToken⟩

theorem total_funDecl : Total T ⟨.funDecl, [.drop .funWord, .phrase .function],
    .nodeUnlessSingle (.other "fun_decl")⟩ := by
  rintro _ ⟨f, rfl, -, hf⟩
  exact .of_ok (Shape.values_single f) ⟨f, rfl, hf⟩

theorem total_function :
    Total T (Grammar.named .function .function
      [.keep .identifier, .drop .leftParen, .phrase .parameters, .drop .rightParen,
        .phrase .block]) ∧
    Total T (Grammar.named .function .function
      [.keep .identifier, .drop .leftParen, .absent, .drop .rightParen, .phrase .block]) := by
  have hfunction : ∀ {name params : Value} {items statements : List Value}, IsWordToken name →
      Listed params items → (∀ p ∈ items, IsWordToken p) →
      (∀ s ∈ statements, MadeStatement T s) →
      Comes Refusal.Forbids (ofRule .function [name, params, block (list statements)])
        fun v => Fits T .function [v] := by
    intro name params items statements hname hlisted hitems hstatements
    exact .of_ok (ofRule_function.mpr ⟨hname.isToken, _, rfl, items, hlisted, rfl⟩)
      ⟨_, rfl, ⟨_, _, _, rfl⟩, .functionDeclaration hname hitems hstatements⟩
  refine ⟨total_named ?_, total_named ?_⟩
  · rintro name hname _ ⟨items, rfl, hitems⟩ _ ⟨statements, rfl, hstatements⟩
    exact hfunction hname.isWordToken (.inr rfl) hitems hstatements
  · rintro name hname _ ⟨statements, rfl, hstatements⟩
    exact hfunction hname.isWordToken (.inl ⟨rfl, rfl⟩) (by simp) hstatements

/-- A list of children is taken as it is, or there are too many of them. -/
theorem comes_limited {violation : Violation} {place : Value → Except Refusal Value}
    {P : Value → Prop} (hplace : ∀ v u, place v = .ok u ↔ P v ∧ u = v) (h : ∀ v ∈ us, P v) :
    Comes Refusal.Forbids (limited violation place us) (· = list us) := by
  by_cases hlen : us.length ≤ argumentLimit
  · exact .of_ok ((limited_eq_ok hplace).mpr ⟨hlen, h, rfl⟩) rfl
  · refine .inr ⟨.violation violation, ?_, violation, rfl⟩
    rw [limited, if_pos (by omega)]

theorem total_parameters :
    Total T (Grammar.named .parameters .parameters
      [.keep .identifier, .phrase .moreParameters]) ∧
    Total T (Grammar.named .parameters .parameters [.keep .identifier]) := by
  have hparameters : ∀ us, (∀ p ∈ us, IsWordToken p) →
      Comes Refusal.Forbids (ofRule .parameters us) fun v => Fits T .parameters [v] := by
    intro us hus
    have hlimited : Comes Refusal.Forbids (ofRule .parameters us) (· = list us) :=
      comes_limited (fun _ _ => token_eq_ok) fun p hp => (hus p hp).isToken
    exact hlimited.mono fun v hv => ⟨us, by rw [hv], hus⟩
  refine ⟨total_named ?_, total_named ?_⟩
  · intro name hname us hus
    show Comes _ (ofRule .parameters (name :: (us ++ []))) _
    rw [List.append_nil]
    exact hparameters _ (List.forall_mem_cons.mpr ⟨hname.isWordToken, hus⟩)
  · intro name hname
    exact hparameters _ (by simpa using hname.isWordToken)

theorem total_varDecl :
    Total T (Grammar.named .varDecl .varDecl
      [.drop .varWord, .keep .identifier, .drop .equal, .phrase .expression, .drop .semicolon]) ∧
    Total T (Grammar.named .varDecl .varDecl
      [.drop .varWord, .keep .identifier, .absent, .drop .semicolon]) := by
  refine ⟨total_named ?_, total_named ?_⟩
  · rintro name hname _ ⟨e, rfl, he⟩
    exact .of_ok (ofRule_varDecl.mpr ⟨hname.isWordToken.isToken, .inr he.isExpression, rfl⟩)
      ⟨_, rfl, .variableDeclaration hname.isWordToken he⟩
  · intro name hname
    exact .of_ok (ofRule_varDecl.mpr ⟨hname.isWordToken.isToken, .inl rfl, rfl⟩)
      ⟨_, rfl, .uninitialized hname.isWordToken⟩

theorem total_declarationRules : ∀ p ∈ Grammar.declarationRules, Total T p := by
  simp only [Grammar.declarationRules, List.forall_mem_append, List.forall_mem_cons,
    List.not_mem_nil, IsEmpty.forall_iff, implies_true, and_true]
  refine ⟨⟨⟨⟨⟨⟨⟨total_program, ?_⟩, ?_⟩, ?_⟩, ?_⟩, ?_⟩, ?_⟩, total_varDecl⟩
  · refine total_listOf (fun _ => Iff.rfl)
      (fun us vs hu hv => List.forall_mem_append.mpr ⟨hu, hv⟩) ?_
    rintro _ ⟨s, rfl, hs⟩
    exact List.forall_mem_singleton.mpr hs
  · refine total_oneOf ?_
    simp only [List.forall_mem_cons, List.not_mem_nil, IsEmpty.forall_iff, implies_true, and_true]
    exact ⟨single, single, single, single⟩
  · exact ⟨total_classDecl_of_superclass.1, total_classDecl_of_superclass.2, total_classDecl⟩
  · refine total_listOf (P := Fits T .methods) (fun _ => Iff.rfl) (fun us vs hu hv => ?_) ?_
    · exact ⟨List.forall_mem_append.mpr ⟨hu.1, hv.1⟩, List.forall_mem_append.mpr ⟨hu.2, hv.2⟩⟩
    · rintro _ ⟨f, rfl, hfunction, hf⟩
      exact ⟨List.forall_mem_singleton.mpr hfunction, List.forall_mem_singleton.mpr hf⟩
  · exact ⟨total_superclass, total_funDecl, total_function.1, total_function.2, total_parameters⟩
  · refine total_listOf (fun _ => Iff.rfl)
      (fun us vs hu hv => List.forall_mem_append.mpr ⟨hu, hv⟩) ?_
    intro name hname
    exact List.forall_mem_singleton.mpr hname.isWordToken

/-! ### Statements -/

theorem total_exprStmt :
    Total T (Grammar.named .exprStmt .exprStmt [.phrase .expression, .drop .semicolon]) := by
  refine total_named ?_
  rintro _ ⟨e, rfl, he⟩
  exact .of_ok (ofRule_exprStmt.mpr ⟨he.isExpression, rfl⟩) ⟨_, rfl, .expressionStatement he⟩

theorem total_printStmt :
    Total T (Grammar.named .printStmt .printStmt
      [.drop .printWord, .phrase .expression, .drop .semicolon]) := by
  refine total_named ?_
  rintro _ ⟨e, rfl, he⟩
  exact .of_ok (ofRule_printStmt.mpr ⟨he.isExpression, rfl⟩) ⟨_, rfl, .print he⟩

theorem total_returnStmt :
    Total T (Grammar.named .returnStmt .returnStmt
      [.drop .returnWord, .phrase .expression, .drop .semicolon]) ∧
    Total T (Grammar.named .returnStmt .returnStmt
      [.drop .returnWord, .absent, .drop .semicolon]) := by
  refine ⟨total_named ?_, total_named ?_⟩
  · rintro _ ⟨e, rfl, he⟩
    exact .of_ok (ofRule_returnStmt.mpr ⟨.inr he.isExpression, rfl⟩) ⟨_, rfl, .returnStatement he⟩
  · exact .of_ok (ofRule_returnStmt.mpr ⟨.inl rfl, rfl⟩) ⟨_, rfl, .returnNothing⟩

theorem total_ifStmt :
    Total T (Grammar.named .ifStmt .ifStmt
      [.drop .ifWord, .drop .leftParen, .phrase .expression, .drop .rightParen, .phrase .statement,
        .drop .elseWord, .phrase .statement]) ∧
    Total T (Grammar.named .ifStmt .ifStmt
      [.drop .ifWord, .drop .leftParen, .phrase .expression, .drop .rightParen, .phrase .statement,
        .absent]) := by
  refine ⟨total_named ?_, total_named ?_⟩
  · rintro _ ⟨c, rfl, hc⟩ _ ⟨t, rfl, ht⟩ _ ⟨e, rfl, he⟩
    exact .of_ok (ofRule_ifStmt.mpr ⟨hc.isExpression, ht.isStatement, .inr he.isStatement, rfl⟩)
      ⟨_, rfl, .ifElseStatement hc ht he⟩
  · rintro _ ⟨c, rfl, hc⟩ _ ⟨t, rfl, ht⟩
    exact .of_ok (ofRule_ifStmt.mpr ⟨hc.isExpression, ht.isStatement, .inl rfl, rfl⟩)
      ⟨_, rfl, .ifStatement hc ht⟩

theorem total_whileStmt :
    Total T (Grammar.named .whileStmt .whileStmt
      [.drop .whileWord, .drop .leftParen, .phrase .expression, .drop .rightParen,
        .phrase .statement]) := by
  refine total_named ?_
  rintro _ ⟨c, rfl, hc⟩ _ ⟨b, rfl, hb⟩
  exact .of_ok (ofRule_whileStmt.mpr ⟨hc.isExpression, hb.isStatement, rfl⟩)
    ⟨_, rfl, .whileStatement hc hb⟩

theorem total_block :
    Total T (Grammar.named .block .block
      [.drop .leftBrace, .phrase .declarations, .drop .rightBrace]) ∧
    Total T (Grammar.named .block .block [.drop .leftBrace, .drop .rightBrace]) := by
  refine ⟨total_named fun us hus => ?_, total_named ?_⟩
  · show Comes _ (ofRule .block (us ++ [])) _
    rw [List.append_nil]
    exact .of_ok (ofRule_block.mpr ⟨fun s hs => (hus s hs).isStatement, rfl⟩) ⟨us, rfl, hus⟩
  · exact .of_ok rfl ⟨[], rfl, List.forall_mem_nil _⟩

/-! ### Loops with an initializer -/

/-- A part of a `for` that can be missing. -/
def IfAny (P : Value → Prop) (v : Value) : Prop := v = nil ∨ P v

theorem IfAny.optional {P : Value → Prop} {sort : Value → Bool} (h : IfAny P v)
    (hP : ∀ v, P v → sort v) : Optional sort v :=
  h.imp_right (hP v)

/-- A `for` loop is made of statements that have no `for`. -/
theorem madeStatement_forLoop {initializer condition increment body : Value}
    (hinitializer : IfAny (MadeStatement T) initializer)
    (hcondition : IfAny (MadeExpression T) condition)
    (hincrement : IfAny (MadeExpression T) increment) (hbody : MadeStatement T body) :
    MadeStatement T (forLoop initializer condition increment body) := by
  have hwhile : ∀ body, MadeStatement T body →
      MadeStatement T (forLoop .nil condition .nil body) := by
    intro body hbody
    rcases hcondition with rfl | hcondition
    · exact .whileStatement (.bool true) hbody
    · rw [forLoop_of_condition hcondition.ne_nil]
      exact .whileStatement hcondition hbody
  have hloop : MadeStatement T (forLoop .nil condition increment body) := by
    rcases hincrement with rfl | hincrement
    · exact hwhile body hbody
    · rw [forLoop_of_increment hincrement.ne_nil]
      refine hwhile _ (.block ?_)
      simpa using ⟨hbody, .expressionStatement hincrement⟩
  rcases hinitializer with rfl | hinitializer
  · exact hloop
  · rw [forLoop_of_initializer hinitializer.ne_nil]
    refine .block ?_
    simpa using ⟨hinitializer, hloop⟩

theorem comes_forStmt {initializer condition increment body : Value}
    (hinitializer : Fits T .forInitializer [initializer])
    (hcondition : IfAny (MadeExpression T) condition)
    (hincrement : IfAny (MadeExpression T) increment) (hbody : MadeStatement T body) :
    Comes Refusal.Forbids (ofRule .forStmt [initializer, condition, increment, body])
      fun v => Fits T .forStmt [v] := by
  have hfirst : IfAny (MadeStatement T) initializer := by
    rcases hinitializer with h | ⟨s, h, hs⟩
    · exact .inl (List.cons.inj h).1
    · exact .inr ((List.cons.inj h).1 ▸ hs)
  refine .of_ok (ofRule_forStmt.mpr ⟨hbody.isStatement, ?_, ?_, ?_, rfl⟩)
    ⟨_, rfl, madeStatement_forLoop hfirst hcondition hincrement hbody⟩
  · exact hincrement.optional fun _ => MadeExpression.isExpression
  · exact hcondition.optional fun _ => MadeExpression.isExpression
  · exact hfirst.optional fun _ => MadeStatement.isStatement

theorem fits_forInitializer (h : Fits T .forInitializer us) :
    ∃ s, us = [s] ∧ Fits T .forInitializer [s] := by
  rcases h with rfl | ⟨s, rfl, hs⟩
  · exact ⟨nil, rfl, .inl rfl⟩
  · exact ⟨s, rfl, .inr ⟨s, rfl, hs⟩⟩

theorem total_forStmt :
    Total T (Grammar.named .forStmt .forStmt
      [.drop .forWord, .drop .leftParen, .phrase .forInitializer, .phrase .expression,
        .drop .semicolon, .phrase .expression, .drop .rightParen, .phrase .statement]) ∧
    Total T (Grammar.named .forStmt .forStmt
      [.drop .forWord, .drop .leftParen, .phrase .forInitializer, .phrase .expression,
        .drop .semicolon, .absent, .drop .rightParen, .phrase .statement]) ∧
    Total T (Grammar.named .forStmt .forStmt
      [.drop .forWord, .drop .leftParen, .phrase .forInitializer, .absent,
        .drop .semicolon, .phrase .expression, .drop .rightParen, .phrase .statement]) ∧
    Total T (Grammar.named .forStmt .forStmt
      [.drop .forWord, .drop .leftParen, .phrase .forInitializer, .absent,
        .drop .semicolon, .absent, .drop .rightParen, .phrase .statement]) := by
  refine ⟨total_named fun us hus => ?_, total_named fun us hus => ?_, total_named fun us hus => ?_,
    total_named fun us hus => ?_⟩
  all_goals obtain ⟨s, rfl, hs⟩ := fits_forInitializer hus
  · rintro _ ⟨c, rfl, hc⟩ _ ⟨i, rfl, hi⟩ _ ⟨b, rfl, hb⟩
    exact comes_forStmt hs (.inr hc) (.inr hi) hb
  · rintro _ ⟨c, rfl, hc⟩ _ ⟨b, rfl, hb⟩
    exact comes_forStmt hs (.inr hc) (.inl rfl) hb
  · rintro _ ⟨i, rfl, hi⟩ _ ⟨b, rfl, hb⟩
    exact comes_forStmt hs (.inl rfl) (.inr hi) hb
  · rintro _ ⟨b, rfl, hb⟩
    exact comes_forStmt hs (.inl rfl) (.inl rfl) hb

theorem total_forInitializer :
    Total T (Grammar.named .forInitializer .forInitializer [.phrase .varDecl]) ∧
    Total T (Grammar.named .forInitializer .forInitializer [.phrase .exprStmt]) ∧
    Total T (Grammar.named .forInitializer .forInitializer [.drop .semicolon]) := by
  have hstatement : ∀ s, MadeStatement T s →
      Comes Refusal.Forbids (ofRule .forInitializer [s]) fun v => Fits T .forInitializer [v] :=
    fun s hs => .of_ok (ofRule_forInitializer.mpr ⟨hs.isStatement, rfl⟩) (.inr ⟨s, rfl, hs⟩)
  refine ⟨total_named ?_, total_named ?_, total_named ?_⟩
  · rintro _ ⟨s, rfl, hs⟩
    exact hstatement s hs
  · rintro _ ⟨s, rfl, hs⟩
    exact hstatement s hs
  · exact .of_ok rfl (.inl rfl)

theorem total_statementRules : ∀ p ∈ Grammar.statementRules, Total T p := by
  simp only [Grammar.statementRules, List.forall_mem_append, List.forall_mem_cons,
    List.not_mem_nil, IsEmpty.forall_iff, implies_true, and_true]
  refine ⟨total_oneOf ?_, total_exprStmt, total_forStmt.1, total_forStmt.2.1, total_forStmt.2.2.1,
    total_forStmt.2.2.2, total_forInitializer.1, total_forInitializer.2.1,
    total_forInitializer.2.2, total_ifStmt.1, total_ifStmt.2, total_printStmt, total_returnStmt.1,
    total_returnStmt.2, total_whileStmt, total_block⟩
  simp only [List.forall_mem_cons, List.not_mem_nil, IsEmpty.forall_iff, implies_true, and_true]
  refine ⟨single, single, single, single, single, single, ?_⟩
  rintro _ ⟨items, rfl, hitems⟩
  exact ⟨_, rfl, _, rfl, .block hitems⟩

/-! ### Expressions -/

theorem total_assign : Total T (Grammar.named .assignment .assign
    [.phrase .logicOr, .drop .equal, .phrase .assignment]) := by
  refine total_named ?_
  rintro _ ⟨target, rfl, htarget⟩ _ ⟨value, rfl, hvalue⟩
  -- only a variable or a property can be assigned to
  have hforbids : ∀ u, assignment value u = .error (.violation .invalidTarget) →
      Comes Refusal.Forbids (ofRule .assign [u, value]) fun v => Fits T .assignment [v] := by
    intro u hu
    refine .inr ⟨.violation .invalidTarget, ?_, _, rfl⟩
    show (expression value >>= fun v => assignment v u) = _
    rw [expression_eq_ok.mpr ⟨hvalue.isExpression, rfl⟩]
    exact hu
  cases htarget with
  | variableName hword _ =>
    exact .of_ok (ofRule_assign.mpr ⟨hvalue.isExpression, .inl ⟨_, rfl, rfl⟩⟩)
      ⟨_, rfl, .assign ⟨_, _, hword, rfl⟩ hvalue⟩
  | get howner hname =>
    exact .of_ok (ofRule_assign.mpr ⟨hvalue.isExpression, .inr ⟨_, _, rfl, rfl⟩⟩)
      ⟨_, rfl, .set howner hname hvalue⟩
  | _ => exact hforbids _ rfl

theorem total_unary (hk : k ∈ TokenKind.unaryOperators) :
    Total T (Grammar.named .unary .unary [.keep k, .phrase .unary]) := by
  have hspelled : ∀ k ∈ TokenKind.unaryOperators, k.spelling?.isSome := by decide
  refine total_named ?_
  rintro operator ho _ ⟨e, rfl, he⟩
  have hoperator : IsOperatorOf TokenKind.unaryOperators operator :=
    ⟨k, hk, ho.isOperator (hspelled k hk)⟩
  exact .of_ok (ofRule_unary.mpr ⟨hoperator.isToken, he.isExpression, rfl⟩)
    ⟨_, rfl, .unary hoperator he⟩

theorem total_unary_callChain :
    Total T ⟨.unary, [.phrase .callChain], .nodeUnlessSingle (.rule .unary)⟩ := by
  rintro _ ⟨e, rfl, he⟩
  exact .of_ok (Shape.values_single e) ⟨e, rfl, he⟩

theorem total_operatorRules : ∀ p ∈ Grammar.operatorRules, Total T p := by
  simp only [Grammar.operatorRules, List.forall_mem_append, List.forall_mem_cons,
    List.not_mem_nil, IsEmpty.forall_iff, implies_true, and_true, and_assoc]
  refine ⟨total_oneOf ?_, total_assign, total_oneOf ?_, ?_, ?_, ?_, ?_, ?_, ?_,
    total_unary (by decide), total_unary (by decide), total_unary_callChain⟩
  · exact List.forall_mem_singleton.mpr single
  · exact List.forall_mem_singleton.mpr single
  · exact total_level (fun _ => rfl) .logical (fun _ => Iff.rfl) (fun _ => Iff.rfl)
      (fun _ => Iff.rfl) (by decide)
  · exact total_level (fun _ => rfl) .logical (fun _ => Iff.rfl) (fun _ => Iff.rfl)
      (fun _ => Iff.rfl) (by decide)
  all_goals
    exact total_level (fun _ => rfl) .binary (fun _ => Iff.rfl) (fun _ => Iff.rfl)
      (fun _ => Iff.rfl) (by decide)

theorem total_call :
    Total T (Grammar.named .callChain .call
      [.phrase .callChain, .drop .leftParen, .phrase .arguments, .drop .rightParen]) ∧
    Total T (Grammar.named .callChain .call
      [.phrase .callChain, .drop .leftParen, .absent, .drop .rightParen]) := by
  refine ⟨total_named ?_, total_named ?_⟩
  · rintro _ ⟨callee, rfl, hcallee⟩ _ ⟨items, rfl, hitems⟩
    exact .of_ok (ofRule_call.mpr ⟨items, .inr rfl, hcallee.isExpression, rfl⟩)
      ⟨_, rfl, .call hcallee hitems⟩
  · rintro _ ⟨callee, rfl, hcallee⟩
    exact .of_ok (ofRule_call.mpr ⟨[], .inl ⟨rfl, rfl⟩, hcallee.isExpression, rfl⟩)
      ⟨_, rfl, .call hcallee (List.forall_mem_nil _)⟩

theorem total_get :
    Total T (Grammar.named .callChain .get [.phrase .callChain, .drop .dot, .keep .identifier]) := by
  refine total_named ?_
  rintro _ ⟨owner, rfl, howner⟩ name hname
  exact .of_ok (ofRule_get.mpr ⟨hname.isWordToken.isToken, howner.isExpression, rfl⟩)
    ⟨_, rfl, .get howner hname.isWordToken⟩

theorem total_arguments :
    Total T (Grammar.named .arguments .arguments [.phrase .expression, .phrase .moreArguments]) ∧
    Total T (Grammar.named .arguments .arguments [.phrase .expression]) := by
  have harguments : ∀ us, (∀ e ∈ us, MadeExpression T e) →
      Comes Refusal.Forbids (ofRule .arguments us) fun v => Fits T .arguments [v] := by
    intro us hus
    have hlimited : Comes Refusal.Forbids (ofRule .arguments us) (· = list us) :=
      comes_limited (fun _ _ => expression_eq_ok) fun e he => (hus e he).isExpression
    exact hlimited.mono fun v hv => ⟨us, by rw [hv], hus⟩
  refine ⟨total_named ?_, total_named ?_⟩
  · rintro _ ⟨e, rfl, he⟩ us hus
    show Comes _ (ofRule .arguments (e :: (us ++ []))) _
    rw [List.append_nil]
    exact harguments _ (List.forall_mem_cons.mpr ⟨he, hus⟩)
  · rintro _ ⟨e, rfl, he⟩
    exact harguments _ (by simpa using he)

/-- The words that stand for a value each. -/
theorem total_word (hv : MadeExpression T v) (hr : ofRule r [] = .ok v) :
    Total T (Grammar.named .primary r [.drop k]) :=
  total_named (.of_ok hr ⟨v, rfl, hv⟩)

/-- A number or a string stands for its value. -/
theorem total_literal (hk : k ∈ [.number, .string])
    (hr : ∀ t, ofRule r [t] = ofRule .number [t]) :
    Total T (Grammar.named .primary r [.keep k]) := by
  refine total_named ?_
  rintro _ ⟨lexeme, denoted, line, rfl, -, hdenoted⟩
  rw [if_pos hk] at hdenoted
  refine .of_ok (a := literal denoted) ?_ ⟨_, rfl, .literal hdenoted⟩
  rw [hr]
  exact ofRule_number.mpr ⟨_, _, _, _, rfl, rfl⟩

theorem total_grouping :
    Total T (Grammar.named .primary .grouping
      [.drop .leftParen, .phrase .expression, .drop .rightParen]) := by
  refine total_named ?_
  rintro _ ⟨e, rfl, he⟩
  exact .of_ok (ofRule_grouping.mpr ⟨he.isExpression, rfl⟩) ⟨_, rfl, .grouping he⟩

theorem total_superExpr :
    Total T (Grammar.named .primary .superExpr
      [.drop .superWord, .drop .dot, .keep .identifier]) := by
  refine total_named fun name hname => ?_
  exact .of_ok (ofRule_superExpr.mpr ⟨hname.isWordToken.isToken, rfl⟩)
    ⟨_, rfl, .super hname.isWordToken⟩

/-- The production of a variable that is looked up. -/
def Grammar.lookup : Production := Grammar.named .primary .variableName [.keep .identifier]

theorem total_primaryRules : ∀ p ∈ Grammar.primaryRules, p ≠ Grammar.lookup → Total T p := by
  simp only [Grammar.primaryRules, List.forall_mem_append, List.forall_mem_cons,
    List.not_mem_nil, IsEmpty.forall_iff, implies_true, and_true, and_assoc]
  refine ⟨fun p hp _ => total_oneOf ?_ p hp, fun _ => total_call.1, fun _ => total_call.2,
    fun _ => total_get, fun _ => total_arguments.1, fun _ => total_arguments.2,
    fun p hp _ => total_listOf (fun _ => Iff.rfl) ?_ ?_ p hp,
    fun _ => total_word (.bool true) rfl, fun _ => total_word (.bool false) rfl,
    fun _ => total_word .nil rfl, fun _ => total_word .this rfl,
    fun _ => total_literal (by decide) fun _ => rfl,
    fun _ => total_literal (by decide) fun _ => rfl, fun h => absurd rfl h,
    fun _ => total_grouping, fun _ => total_superExpr⟩
  · exact List.forall_mem_singleton.mpr single
  · exact fun us vs hu hv => List.forall_mem_append.mpr ⟨hu, hv⟩
  · rintro _ ⟨e, rfl, he⟩
    exact List.forall_mem_singleton.mpr he

/-- **All productions but one are total** whatever the names are. -/
theorem total_of_mem {p : Production} (hp : p ∈ Grammar.productions) (hne : p ≠ Grammar.lookup) :
    Total T p := by
  rcases Grammar.mem_productions.mp hp with hp | hp | hp | hp
  · exact total_declarationRules p hp
  · exact total_statementRules p hp
  · exact total_operatorRules p hp
  · exact total_primaryRules p hp hne

end LoxForms
