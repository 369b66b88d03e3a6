import LoxForms.Proofs.Parsing.Spaced
import LoxForms.Proofs.Writing.Expressions
/-!
# Writing statements

A statement in normal form is regained from its signs. One that ends in an `if`
without an `else` is not regained before an `else`, which would go with that
`if`. No declaration begins with an `else`, so in a list of them this never
happens.
-/

namespace LoxForms

open Building Value

namespace Value

variable {v e name : Value} {vs : List Value} {after : TokenKind}

theorem NormalExpression.ne_nil (h : NormalExpression v) : v ≠ nil := by
  rintro rfl
  exact nomatch h

theorem NormalStatement.isStatement (h : NormalStatement v) : v.isStatement := by
  cases h <;> rfl

/-! ## Statements with expressions -/

theorem regainedAs_expressionStatement (h : NormalExpression e) :
    RegainedAs .exprStmt (expressionStatement e) := by
  intro after
  have hrow : Regains after [.phrase .expression, .drop .semicolon] _ _ :=
    .phrase (fun after _ => h.regainedAs after) (.drop .done)
  exact hrow.made (Grammar.mem_of_statementRules (by simp [Grammar.statementRules]))
    (ofRule_exprStmt.mpr ⟨h.isExpression, rfl⟩) (by simp [spell])

theorem regainedAs_print (h : NormalExpression e) : RegainedAs .printStmt (print e) := by
  intro after
  have hrow : Regains after [.drop .printWord, .phrase .expression, .drop .semicolon] _ _ :=
    .drop (.phrase (fun after _ => h.regainedAs after) (.drop .done))
  exact hrow.made (Grammar.mem_of_statementRules (by simp [Grammar.statementRules]))
    (ofRule_printStmt.mpr ⟨h.isExpression, rfl⟩) (by simp [spell])

theorem regainedAs_returnStatement (h : e = nil ∨ NormalExpression e) :
    RegainedAs .returnStmt (returnStatement e) := by
  intro after
  rcases h with rfl | h
  · have hrow : Regains after [.drop .returnWord, .absent, .drop .semicolon] _ _ :=
      .drop (.absent (by simp [Slot.firsts]) (.drop .done))
    exact hrow.made (Grammar.mem_of_statementRules (by simp [Grammar.statementRules]))
      (ofRule_returnStmt.mpr ⟨.inl rfl, rfl⟩) (by simp [spell])
  · have hrow : Regains after [.drop .returnWord, .phrase .expression, .drop .semicolon] _ _ :=
      .drop (.phrase (fun after _ => h.regainedAs after) (.drop .done))
    exact hrow.made (Grammar.mem_of_statementRules (by simp [Grammar.statementRules]))
      (ofRule_returnStmt.mpr ⟨.inr h.isExpression, rfl⟩) (by simp [spell])

theorem regainedAs_variableDeclaration (hname : IsName name) (h : e = nil ∨ NormalExpression e) :
    RegainedAs .varDecl (variableDeclaration name e) := by
  intro after
  rcases h with rfl | h
  · have hrow : Regains after [.drop .varWord, .keep .identifier, .absent, .drop .semicolon] _ _ :=
      .drop (.name hname (.absent (by simp [Slot.firsts]) (.drop .done)))
    exact hrow.made (Grammar.mem_of_declarationRules (by simp [Grammar.declarationRules]))
      (ofRule_varDecl.mpr ⟨hname.isToken, .inl rfl, rfl⟩) (by simp [spell, given])
  · have hrow : Regains after
        [.drop .varWord, .keep .identifier, .drop .equal, .phrase .expression, .drop .semicolon]
        _ _ :=
      .drop (.name hname (.drop (.phrase (fun after _ => h.regainedAs after) (.drop .done))))
    exact hrow.made (Grammar.mem_of_declarationRules (by simp [Grammar.declarationRules]))
      (ofRule_varDecl.mpr ⟨hname.isToken, .inr h.isExpression, rfl⟩)
      (by simp [spell, given_of_ne h.ne_nil])

/-! ## Blocks -/

/-- To be regained as a declaration, but before an `else`. -/
def RegainedDeclaration (v : Value) : Prop :=
  ∀ after ≠ .elseWord, Regains after [.phrase .declaration] (spell v) [v]

theorem regains_declarations (hvs : ∀ v ∈ vs, RegainedDeclaration v) (hne : vs ≠ [])
    (hafter : after ≠ .elseWord) : Regains after [.phrase .declarations] (spellAll vs) vs := by
  refine .listOf [.phrase .declaration] (fun p hp => ?_) spellAll_append
    (fun _ => by simp only [Slot.firsts]; decide) (fun v hv k hk => ?_) hne hafter
  · refine Grammar.mem_of_declarationRules ?_
    simp only [Grammar.declarationRules, List.mem_append, hp, true_or, or_true]
  · rw [spellAll_singleton]
    exact hvs v hv k hk

theorem regainedAs_block (hvs : ∀ v ∈ vs, RegainedDeclaration v ∧ v.isStatement) :
    RegainedAs .block (block (list vs)) := by
  intro after
  have hmade : ofRule .block vs = .ok (block (list vs)) :=
    ofRule_block.mpr ⟨fun v hv => (hvs v hv).2, rfl⟩
  by_cases hne : vs = []
  · subst hne
    have hrow : Regains after [.drop .leftBrace, .drop .rightBrace] _ _ := .drop (.drop .done)
    exact hrow.made (Grammar.mem_of_statementRules (by simp [Grammar.statementRules])) hmade
      (by simp [spell, spellBody, spellAll])
  · have hbody : Regains .rightBrace [.phrase .declarations] (spellAll vs) vs :=
      regains_declarations (fun v hv => (hvs v hv).1) hne (by decide)
    have hrow : Regains after
        [.drop .leftBrace, .phrase .declarations, .drop .rightBrace] _ (vs ++ []) :=
      .drop (.phrase (fun k hk => List.mem_singleton.mp hk ▸ hbody) (.drop .done))
    rw [List.append_nil] at hrow
    exact hrow.made (Grammar.mem_of_statementRules (by simp [Grammar.statementRules])) hmade
      (by simp [spell, spellBody])

/-! ## Functions and classes -/

theorem regains_parameters (hne : vs ≠ []) (hvs : ∀ v ∈ vs, IsName v)
    (hlen : vs.length ≤ argumentLimit) (hafter : after ≠ .elseWord) :
    Regains after [.phrase .parameters] (spellListed (list vs)) [list vs] := by
  obtain ⟨first, rest, rfl⟩ := List.exists_cons_of_ne_nil hne
  have hmade : ofRule .parameters (first :: rest) = .ok (list (first :: rest)) :=
    ofRule_parameters.mpr ⟨hlen, fun v hv => (hvs v hv).isToken, rfl⟩
  rw [List.forall_mem_cons] at hvs
  rw [spellListed]
  by_cases hrest : rest = []
  · subst hrest
    exact .named (r := .parameters)
      (Grammar.mem_of_declarationRules (by simp [Grammar.declarationRules])) (.name hvs.1 .done) hmade
  · have hmore : Regains after [.phrase .moreParameters] (spellMore rest) rest := by
      refine .listOf [.drop .comma, .keep .identifier] (fun p hp => ?_)
        spellMore_append (fun _ => by simp [Slot.firsts]) (fun v hv k _ => ?_) hrest hafter
      · refine Grammar.mem_of_declarationRules ?_
        simp only [Grammar.declarationRules, List.mem_append, hp, true_or, or_true]
      · have hrow : Regains k [.drop .comma, .keep .identifier] _ _ :=
          .drop (.name (hvs.2 v hv) .done)
        rw [spellMore_singleton]
        simpa using hrow
    exact .named (r := .parameters)
      (Grammar.mem_of_declarationRules (by simp [Grammar.declarationRules])) (.name hvs.1 hmore) hmade

/-- To be regained as a method, without the word that begins a function. -/
def RegainedMethod (v : Value) : Prop := ∀ after, Regains after [.phrase .function] (spellMethod v) [v]

theorem regainedMethod {params body : List Value} (hname : IsName name)
    (hlen : params.length ≤ argumentLimit) (hparams : ∀ p ∈ params, IsName p)
    (hbody : ∀ s ∈ body, RegainedDeclaration s ∧ s.isStatement) :
    RegainedMethod (functionDeclaration name (list params) (list body)) := by
  intro after
  have hblock := regainedAs_block hbody
  by_cases hne : params = []
  · subst hne
    have hrow : Regains after
        [.keep .identifier, .drop .leftParen, .absent, .drop .rightParen, .phrase .block] _ _ :=
      .name hname (.drop (.absent (by simp [Slot.firsts]) (.drop (hblock after))))
    have hmethod := hrow.named (r := .function) (n := .function)
      (Grammar.mem_of_declarationRules (by simp [Grammar.declarationRules]))
      (ofRule_function.mpr ⟨hname.isToken, _, rfl, [], .inl ⟨rfl, rfl⟩, rfl⟩)
    simpa [spellMethod, functionSigns, spell, spellListed] using hmethod
  · have hlist : Regains .rightParen [.phrase .parameters] (spellListed (list params)) [list params] :=
      regains_parameters hne hparams hlen (by decide)
    have hrow : Regains after [.keep .identifier, .drop .leftParen, .phrase .parameters,
        .drop .rightParen, .phrase .block] _ _ :=
      .name hname (.drop (.phrase (fun k hk => List.mem_singleton.mp hk ▸ hlist)
        (.drop (hblock after))))
    have hmethod := hrow.named (r := .function) (n := .function)
      (Grammar.mem_of_declarationRules (by simp [Grammar.declarationRules]))
      (ofRule_function.mpr ⟨hname.isToken, _, rfl, params, .inr rfl, rfl⟩)
    simpa [spellMethod, functionSigns, spell] using hmethod

theorem regains_methods (hvs : ∀ v ∈ vs, RegainedMethod v) (hne : vs ≠ [])
    (hafter : after ≠ .elseWord) : Regains after [.phrase .methods] (spellEach vs) vs := by
  refine .listOf [.phrase .function] (fun p hp => ?_) spellEach_append
    (fun _ => by simp only [Slot.firsts]; decide) (fun v hv k _ => ?_) hne hafter
  · refine Grammar.mem_of_declarationRules ?_
    simp only [Grammar.declarationRules, List.mem_append, hp, true_or, or_true]
  · rw [spellEach_singleton]
    exact hvs v hv k

/-- A superclass, if there is one. -/
theorem exists_regains_base {base : Value} (h : base = nil ∨ ∃ b, IsName b ∧ base = variableName b) :
    ∃ s ∈ [Slot.phrase .superclass, .absent],
      Regains .leftBrace [s] (given base ([Sign.fixed .less] ++ spell base)) [base] := by
  rcases h with rfl | ⟨b, hb, rfl⟩
  · exact ⟨.absent, by simp, .absent (by simp [Slot.firsts]) .done⟩
  · have hrow : Regains .leftBrace [.drop .less, .keep .identifier] _ _ := .drop (.name hb .done)
    have hphrase := hrow.named (r := .superclass) (n := .superclass)
      (Grammar.mem_of_declarationRules (by simp [Grammar.declarationRules]))
      (ofRule_superclass.mpr ⟨hb.isToken, rfl⟩)
    refine ⟨.phrase .superclass, by simp, ?_⟩
    simpa [given, spell] using hphrase

/-- The methods of a class between braces, if there are any. -/
theorem exists_regains_methods (hvs : ∀ v ∈ vs, RegainedMethod v) (after : TokenKind) :
    ∃ slots ∈ [[Slot.drop .leftBrace, .phrase .methods, .drop .rightBrace],
        [.drop .leftBrace, .drop .rightBrace]],
      Slot.firsts after slots = [.leftBrace] ∧
        Regains after slots ([Sign.fixed .leftBrace] ++ spellEach vs ++ [Sign.fixed .rightBrace]) vs := by
  by_cases hne : vs = []
  · subst hne
    exact ⟨_, List.mem_cons_of_mem _ List.mem_cons_self, rfl, .drop (.drop .done)⟩
  · have hmethods : Regains .rightBrace [.phrase .methods] (spellEach vs) vs :=
      regains_methods hvs hne (by decide)
    have hrow : Regains after [.drop .leftBrace, .phrase .methods, .drop .rightBrace] _ (vs ++ []) :=
      .drop (.phrase (fun k hk => List.mem_singleton.mp hk ▸ hmethods) (.drop .done))
    rw [List.append_nil] at hrow
    exact ⟨_, List.mem_cons_self, rfl, hrow⟩

theorem regainedAs_classDeclaration {base : Value} (hname : IsName name)
    (hbase : base = nil ∨ ∃ b, IsName b ∧ base = variableName b)
    (hvs : ∀ v ∈ vs, RegainedMethod v ∧
      ∃ name params body, v = functionDeclaration name params body) :
    RegainedAs .classDecl (classDeclaration name base (list vs)) := by
  intro after
  obtain ⟨s, hs, hsuperclass⟩ := exists_regains_base hbase
  obtain ⟨slots, hslots, hfirst, hmethods⟩ := exists_regains_methods (fun v hv => (hvs v hv).1) after
  have hbefore : ∀ k ∈ Slot.firsts after slots,
      Regains k [s] (given base ([Sign.fixed .less] ++ spell base)) [base] := by
    intro k hk
    rw [hfirst, List.mem_singleton] at hk
    exact hk ▸ hsuperclass
  have hrow : Regains after (.drop .classWord :: .keep .identifier :: ([s] ++ slots)) _ _ :=
    .drop (.name hname (.append hbefore hmethods))
  have hp : Grammar.named .classDecl .classDecl
      (.drop .classWord :: .keep .identifier :: ([s] ++ slots)) ∈ Grammar.declarationRules := by
    simp only [List.mem_cons, List.not_mem_nil, or_false] at hs hslots
    rcases hs with rfl | rfl <;> rcases hslots with rfl | rfl <;> simp [Grammar.declarationRules]
  refine hrow.made (Grammar.mem_of_declarationRules hp) (ofRule_classDecl.mpr ⟨hname.isToken, ?_,
    fun v hv => (hvs v hv).2, rfl⟩) (by simp [spell, spellMethods])
  refine hbase.imp_right ?_
  rintro ⟨b, -, hb⟩
  exact ⟨b, hb⟩

/-! ## Branches -/

/-- To be regained as a statement, but not before an `else` that would go with
an `if` at its end. -/
def RegainedStatement (v : Value) : Prop :=
  ∀ after, (v.endsOpen → after ≠ .elseWord) → Regains after [.phrase .statement] (spell v) [v]

theorem RegainedAs.regainedStatement {n : Nonterminal} (h : RegainedAs n v)
    (hn : n ∈ [.exprStmt, .printStmt, .returnStmt, .block]) : RegainedStatement v := by
  refine fun after _ => (h after).through (l := .other "statement") (Grammar.mem_of_statementRules ?_)
  simp only [List.mem_cons, List.not_mem_nil, or_false] at hn
  rcases hn with rfl | rfl | rfl | rfl <;> simp [Grammar.statementRules, Grammar.oneOf]

theorem regainedStatement_if {condition thenBranch : Value} (hc : NormalExpression condition)
    (ht : RegainedStatement thenBranch) (hs : thenBranch.isStatement) :
    RegainedStatement (ifStatement condition thenBranch nil) := by
  intro after hafter
  have hne : after ≠ .elseWord := hafter rfl
  have hthen : ∀ k ∈ Slot.firsts after [.absent],
      Regains k [.phrase .statement] (spell thenBranch) [thenBranch] := by
    intro k hk
    obtain rfl := List.mem_singleton.mp hk
    exact ht k fun _ => hne
  have hrow : Regains after [.drop .ifWord, .drop .leftParen, .phrase .expression,
      .drop .rightParen, .phrase .statement, .absent] _ _ :=
    .drop (.drop (.phrase (fun after _ => hc.regainedAs after) (.drop (.phrase hthen
      (.absent (by simpa [Slot.firsts] using hne.symm) .done)))))
  have hif : Regains after [.phrase .ifStmt] _ _ := hrow.made (r := .ifStmt)
    (Grammar.mem_of_statementRules (by simp [Grammar.statementRules]))
    (ofRule_ifStmt.mpr ⟨hc.isExpression, hs, .inl rfl, rfl⟩) (by simp [spell, given])
  exact hif.through (l := .other "statement")
    (Grammar.mem_of_statementRules (by simp [Grammar.statementRules, Grammar.oneOf]))

theorem regainedStatement_ifElse {condition thenBranch elseBranch : Value}
    (hc : NormalExpression condition) (ht : RegainedStatement thenBranch)
    (hs : thenBranch.isStatement) (hclosed : ¬ thenBranch.endsOpen)
    (he : RegainedStatement elseBranch) (hes : elseBranch.isStatement) :
    RegainedStatement (ifStatement condition thenBranch elseBranch) := by
  intro after hafter
  have hne := ne_nil_of_isStatement hes
  rw [endsOpen_ifStatement hne] at hafter
  have hthen : ∀ k ∈ Slot.firsts after [.drop .elseWord, .phrase .statement],
      Regains k [.phrase .statement] (spell thenBranch) [thenBranch] :=
    fun k _ => ht k fun hopen => absurd hopen hclosed
  have hrow : Regains after [.drop .ifWord, .drop .leftParen, .phrase .expression,
      .drop .rightParen, .phrase .statement, .drop .elseWord, .phrase .statement] _ _ :=
    .drop (.drop (.phrase (fun after _ => hc.regainedAs after) (.drop (.phrase hthen
      (.drop (he after hafter))))))
  have hif : Regains after [.phrase .ifStmt] _ _ := hrow.made (r := .ifStmt)
    (Grammar.mem_of_statementRules (by simp [Grammar.statementRules]))
    (ofRule_ifStmt.mpr ⟨hc.isExpression, hs, .inr hes, rfl⟩) (by simp [spell, given_of_ne hne])
  exact hif.through (l := .other "statement")
    (Grammar.mem_of_statementRules (by simp [Grammar.statementRules, Grammar.oneOf]))

theorem regainedStatement_while {condition body : Value} (hc : NormalExpression condition)
    (hb : RegainedStatement body) (hs : body.isStatement) :
    RegainedStatement (whileStatement condition body) := by
  intro after hafter
  have hrow : Regains after [.drop .whileWord, .drop .leftParen, .phrase .expression,
      .drop .rightParen, .phrase .statement] _ _ :=
    .drop (.drop (.phrase (fun after _ => hc.regainedAs after) (.drop (hb after hafter))))
  have hwhile : Regains after [.phrase .whileStmt] _ _ := hrow.made (r := .whileStmt)
    (Grammar.mem_of_statementRules (by simp [Grammar.statementRules]))
    (ofRule_whileStmt.mpr ⟨hc.isExpression, hs, rfl⟩) (by simp [spell])
  exact hwhile.through (l := .other "statement")
    (Grammar.mem_of_statementRules (by simp [Grammar.statementRules, Grammar.oneOf]))

/-! ## All statements -/

theorem RegainedStatement.regainedDeclaration (h : RegainedStatement v) : RegainedDeclaration v :=
  fun after hafter => (h after fun _ => hafter).through (l := .other "declaration")
    (Grammar.mem_of_declarationRules (by simp [Grammar.declarationRules, Grammar.oneOf]))

theorem RegainedAs.regainedDeclaration {n : Nonterminal} (h : RegainedAs n v)
    (hn : n ∈ [.classDecl, .varDecl]) : RegainedDeclaration v := by
  refine fun after _ => (h after).through (l := .other "declaration")
    (Grammar.mem_of_declarationRules ?_)
  simp only [List.mem_cons, List.not_mem_nil, or_false] at hn
  rcases hn with rfl | rfl <;> simp [Grammar.declarationRules, Grammar.oneOf]

theorem RegainedMethod.regainedDeclaration {params body : Value}
    (h : RegainedMethod (functionDeclaration name params body)) :
    RegainedDeclaration (functionDeclaration name params body) := by
  intro after hafter
  have hrow : Regains after [.drop .funWord, .phrase .function] _ _ := .drop (h after)
  have hfunction : Regains after [.phrase .funDecl] _ _ :=
    hrow.production (p := ⟨.funDecl, [.drop .funWord, .phrase .function],
      .nodeUnlessSingle (.other "fun_decl")⟩)
      (Grammar.mem_of_declarationRules (by simp [Grammar.declarationRules])) rfl
  exact hfunction.through (l := .other "declaration")
    (Grammar.mem_of_declarationRules (by simp [Grammar.declarationRules, Grammar.oneOf]))

/-- **A statement in normal form is regained**, as a declaration and, if it is
none, as a statement; a function also as a method. -/
theorem NormalStatement.regained (h : NormalStatement v) :
    RegainedDeclaration v ∧ (¬ v.isDeclaration → RegainedStatement v) ∧
      ((∃ name params body, v = .functionDeclaration name params body) → RegainedMethod v) := by
  have hstatement {v : Value} (hv : RegainedStatement v)
      (hfun : ∀ n p b, v ≠ .functionDeclaration n p b) :
      RegainedDeclaration v ∧ (¬ v.isDeclaration → RegainedStatement v) ∧
        ((∃ name params body, v = .functionDeclaration name params body) → RegainedMethod v) :=
    ⟨hv.regainedDeclaration, fun _ => hv, fun ⟨n, p, b, heq⟩ => absurd heq (hfun n p b)⟩
  induction h with
  | expressionStatement he =>
    exact hstatement ((regainedAs_expressionStatement he).regainedStatement (by decide)) (by simp)
  | print he => exact hstatement ((regainedAs_print he).regainedStatement (by decide)) (by simp)
  | returnStatement he =>
    exact hstatement ((regainedAs_returnStatement he).regainedStatement (by decide)) (by simp)
  | variableDeclaration hname he =>
    refine ⟨(regainedAs_variableDeclaration hname he).regainedDeclaration (by decide), ?_, by simp⟩
    exact fun hno => absurd rfl hno
  | block hss ih =>
    refine hstatement (RegainedAs.regainedStatement (regainedAs_block ?_) (by decide)) (by simp)
    exact fun s hs => ⟨(ih s hs).1, (hss s hs).isStatement⟩
  | ifStatement hc ht hno ih =>
    exact hstatement (regainedStatement_if hc (ih.2.1 hno) ht.isStatement) (by simp)
  | ifElseStatement hc ht hno hclosed he hno' iht ihe =>
    exact hstatement (regainedStatement_ifElse hc (iht.2.1 hno) ht.isStatement hclosed (ihe.2.1 hno')
      he.isStatement) (by simp)
  | whileStatement hc hb hno ih =>
    exact hstatement (regainedStatement_while hc (ih.2.1 hno) hb.isStatement) (by simp)
  | functionDeclaration hname hlen hparams hss ih =>
    have hmethod := regainedMethod hname hlen hparams
      fun s hs => ⟨(ih s hs).1, (hss s hs).isStatement⟩
    exact ⟨hmethod.regainedDeclaration, fun hno => absurd rfl hno, fun _ => hmethod⟩
  | classDeclaration hname hbase hms hmethods ih =>
    have hclass := regainedAs_classDeclaration hname hbase
      fun m hm => ⟨(ih m hm).2.2 (hmethods m hm), hmethods m hm⟩
    exact ⟨hclass.regainedDeclaration (by decide), fun hno => absurd rfl hno, by simp⟩

end Value

end LoxForms
