import LoxForms.Proofs.Building.Branches
import LoxForms.Proofs.Building.Composing
import LoxForms.Proofs.Building.Concatenation
/-!
# Parts of programs

A text that is a program of one statement (`StandsFor`) can be taken as a part of
another one, where it is read as the same phrase. Which phrase that is can be seen from
the statement, since the productions of a declaration and of a statement are told apart
by the kinds of node that they make (`Reads.statement_of_declaration`,
`Reads.varDecl_of_declaration`, `Reads.exprStmt_of_statement`). A statement is found by
itself, and an expression before the semicolon of an expression statement
(`StandsFor.exists_part_expression`).

The states that the lexemes of such a part lead to are those of its own scan, since
there is one run only over the lexemes of a program (`exists_part`).
-/

namespace LoxForms

open Automaton Building

/-! ## Which statement a phrase makes -/

/-- The kinds of node that a rule of statements makes. -/
def Rule.statementVariants : Rule → List Variant
  | classDecl => [.classDeclaration]
  | function => [.functionDeclaration]
  | varDecl => [.variableDeclaration]
  | exprStmt => [.expressionStatement]
  | printStmt => [.print]
  | returnStmt => [.returnStatement]
  | block => [.block]
  | ifStmt => [.ifStatement]
  | whileStmt => [.whileStatement]
  | forStmt => [.block, .whileStatement]
  | _ => []

variable {k : TokenKind} {r : Rule} {n : Nonterminal} {w : List Lexeme} {ts : List (Tree Lexeme)}
variable {e v : Value} {us vs : List Value}

namespace Value

theorem variant?_eq_expressionStatement :
    v.variant? = some .expressionStatement ↔ ∃ e, v = .expressionStatement e := by
  constructor
  · intro h
    cases v <;> first | exact ⟨_, rfl⟩ | exact nomatch h
  · rintro ⟨e, rfl⟩
    rfl

theorem isDeclaration_of_variant? {x : Variant} (h : v.variant? = some x)
    (hx : x ∈ [.variableDeclaration, .functionDeclaration, .classDeclaration]) :
    v.isDeclaration := by
  cases v <;> first | rfl | (cases h <;> exact absurd hx (by decide))

end Value

theorem variant?_forLoop {initializer condition increment body : Value} :
    ∃ x ∈ Rule.forStmt.statementVariants,
      (forLoop initializer condition increment body).variant? = some x := by
  by_cases hnil : initializer = .nil
  · subst hnil
    exact ⟨.whileStatement, by decide, rfl⟩
  · rw [forLoop_of_initializer hnil]
    exact ⟨.block, by decide, rfl⟩

/-- A `for` loop stands for a block or a loop. -/
theorem isStatement_forLoop {initializer condition increment body : Value} :
    (forLoop initializer condition increment body).isStatement := by
  have all_statements : ∀ x ∈ Rule.forStmt.statementVariants, Variant.statements.contains x := by
    decide
  obtain ⟨x, hx, hvariant⟩ := variant?_forLoop
  rw [Value.isStatement, hvariant]
  exact all_statements x hx

theorem variant?_ofRule (hr : r.statementVariants ≠ []) (h : ofRule r us = .ok v) :
    ∃ x ∈ r.statementVariants, v.variant? = some x := by
  cases r <;> first | exact absurd rfl hr | skip
  case classDecl =>
    match us, h with
    | name :: superclass :: methods, h =>
      obtain ⟨-, -, -, rfl⟩ := ofRule_classDecl.mp h
      exact ⟨_, List.mem_singleton_self _, rfl⟩
  case function =>
    match us, h with
    | [name, params, body], h =>
      obtain ⟨-, _, -, _, -, rfl⟩ := ofRule_function.mp h
      exact ⟨_, List.mem_singleton_self _, rfl⟩
  case varDecl =>
    match us, h with
    | [name, initializer], h =>
      obtain ⟨-, -, rfl⟩ := ofRule_varDecl.mp h
      exact ⟨_, List.mem_singleton_self _, rfl⟩
  case exprStmt =>
    match us, h with
    | [e], h =>
      obtain ⟨-, rfl⟩ := ofRule_exprStmt.mp h
      exact ⟨_, List.mem_singleton_self _, rfl⟩
  case printStmt =>
    match us, h with
    | [e], h =>
      obtain ⟨-, rfl⟩ := ofRule_printStmt.mp h
      exact ⟨_, List.mem_singleton_self _, rfl⟩
  case returnStmt =>
    match us, h with
    | [e], h =>
      obtain ⟨-, rfl⟩ := ofRule_returnStmt.mp h
      exact ⟨_, List.mem_singleton_self _, rfl⟩
  case block =>
    obtain ⟨-, rfl⟩ := ofRule_block.mp h
    exact ⟨_, List.mem_singleton_self _, rfl⟩
  case ifStmt =>
    match us, h with
    | [condition, thenBranch, elseBranch], h =>
      obtain ⟨-, -, -, rfl⟩ := ofRule_ifStmt.mp h
      exact ⟨_, List.mem_singleton_self _, rfl⟩
  case whileStmt =>
    match us, h with
    | [condition, body], h =>
      obtain ⟨-, -, rfl⟩ := ofRule_whileStmt.mp h
      exact ⟨_, List.mem_singleton_self _, rfl⟩
  case forStmt =>
    match us, h with
    | [initializer, condition, increment, body], h =>
      obtain ⟨-, -, -, -, rfl⟩ := ofRule_forStmt.mp h
      exact variant?_forLoop

/-- What a phrase is built of, one of its productions is built of. -/
theorem Reads.exists_production (h : Reads k [.phrase n] w ts)
    (hbuild : Tree.buildAll Program.readLexeme ts = .ok vs) :
    ∃ p ∈ Grammar.productions, p.phrase = n ∧ ∃ us ws, Reads k p.slots w us ∧
      Tree.buildAll Program.readLexeme us = .ok ws ∧ p.shape.values ws = .ok vs := by
  obtain ⟨p, hp, hn, us, hin, rfl⟩ := h.of_phrase
  obtain ⟨ws, hws, hvalues⟩ := (Shape.buildAll_apply _).mp hbuild
  exact ⟨p, hp, hn, us, ws, hin, hws, hvalues⟩

/-- The rule that names what a phrase makes, if there is one for all of it. -/
def Nonterminal.statementRule? : Nonterminal → Option Rule
  | classDecl => some .classDecl
  | function => some .function
  | varDecl => some .varDecl
  | exprStmt => some .exprStmt
  | forStmt => some .forStmt
  | ifStmt => some .ifStmt
  | printStmt => some .printStmt
  | returnStmt => some .returnStmt
  | whileStmt => some .whileStmt
  | block => some .block
  | _ => none

/-- How the phrases are made that a statement stands in. -/
theorem Grammar.rows_of_mem {p : Production} (hp : p ∈ productions) :
    (p.phrase = .declaration →
      p ∈ oneOf .declaration "declaration" [.classDecl, .funDecl, .varDecl, .statement]) ∧
    (p.phrase = .statement → p ∈ oneOf .statement "statement"
      [.exprStmt, .forStmt, .ifStmt, .printStmt, .returnStmt, .whileStmt, .block]) ∧
    (p.phrase = .funDecl →
      p = ⟨.funDecl, [.drop .funWord, .phrase .function], .nodeUnlessSingle (.other "fun_decl")⟩) ∧
    (p.phrase = .exprStmt →
      p = named .exprStmt .exprStmt [.phrase .expression, .drop .semicolon]) := by
  have all_rows : ∀ p ∈ productions.toList,
      (p.phrase = .declaration →
        p ∈ oneOf .declaration "declaration" [.classDecl, .funDecl, .varDecl, .statement]) ∧
      (p.phrase = .statement → p ∈ oneOf .statement "statement"
        [.exprStmt, .forStmt, .ifStmt, .printStmt, .returnStmt, .whileStmt, .block]) ∧
      (p.phrase = .funDecl → p =
        ⟨.funDecl, [.drop .funWord, .phrase .function], .nodeUnlessSingle (.other "fun_decl")⟩) ∧
      (p.phrase = .exprStmt →
        p = named .exprStmt .exprStmt [.phrase .expression, .drop .semicolon]) := by
    decide +kernel
  exact all_rows p (Array.mem_toList_iff.mpr hp)

namespace Reads

theorem variant? (hr : n.statementRule? = some r) (h : Reads k [.phrase n] w ts)
    (hbuild : Tree.buildAll Program.readLexeme ts = .ok [v]) :
    ∃ x ∈ r.statementVariants, v.variant? = some x := by
  have all_named : ∀ p ∈ Grammar.productions.toList, ∀ r ∈ p.phrase.statementRule?,
      p.shape = .node (.rule r) ∧ r.statementVariants ≠ [] := by decide +kernel
  obtain ⟨p, hp, rfl, us, ws, -, -, hvalues⟩ := h.exists_production hbuild
  obtain ⟨hshape, hvariants⟩ := all_named p (Array.mem_toList_iff.mpr hp) r hr
  rw [hshape] at hvalues
  obtain ⟨u, hu, heq⟩ := Shape.values_node.mp hvalues
  obtain rfl := List.singleton_inj.mp heq
  exact variant?_ofRule hvariants (ofNode_rule.mp hu)

/-- A phrase that is one of several others. -/
theorem of_oneOf {name : String} {alternatives : List Nonterminal}
    (hn : ∀ p ∈ Grammar.productions, p.phrase = n → p ∈ Grammar.oneOf n name alternatives)
    (hsingle : ∀ a ∈ alternatives, a ∉ Nonterminal.rows) (h : Reads k [.phrase n] w ts)
    (hbuild : Tree.buildAll Program.readLexeme ts = .ok vs) :
    ∃ a ∈ alternatives, ∃ us, Reads k [.phrase a] w us ∧
      Tree.buildAll Program.readLexeme us = .ok vs := by
  obtain ⟨p, hp, hphrase, us, ws, hin, hus, hvalues⟩ := h.exists_production hbuild
  obtain ⟨a, ha, rfl⟩ := List.mem_map.mp (hn p hp hphrase)
  obtain ⟨u, us', rfl, -, hnil⟩ :=
    (hin.rowBefore hus).phrase (Nonterminal.isSpliced_eq_false (hsingle a ha))
  obtain rfl : us' = [] := hnil
  obtain rfl := Except.ok.inj hvalues
  exact ⟨a, ha, us, hin, hus⟩

/-- A declaration is a statement, the declaration of a variable or another one. -/
theorem of_declaration (h : Reads k [.phrase .declaration] w ts)
    (hbuild : Tree.buildAll Program.readLexeme ts = .ok [v]) :
    (∃ us, Reads k [.phrase .statement] w us ∧ Tree.buildAll Program.readLexeme us = .ok [v]) ∨
      (∃ us, Reads k [.phrase .varDecl] w us ∧ Tree.buildAll Program.readLexeme us = .ok [v]) ∨
        v.variant? = some .classDeclaration ∨ v.variant? = some .functionDeclaration := by
  obtain ⟨a, ha, us, hreads, hus⟩ :=
    h.of_oneOf (fun p hp => (Grammar.rows_of_mem hp).1) (by decide) hbuild
  simp only [List.mem_cons, List.not_mem_nil, or_false] at ha
  rcases ha with rfl | rfl | rfl | rfl
  · obtain ⟨x, hx, hvariant⟩ := hreads.variant? rfl hus
    obtain rfl := List.mem_singleton.mp hx
    exact .inr (.inr (.inl hvariant))
  · obtain ⟨p, hp, hphrase, ts', ws, hin, hws, hvalues⟩ := hreads.exists_production hus
    obtain rfl := (Grammar.rows_of_mem hp).2.2.1 hphrase
    obtain ⟨u, us', rfl, -, hnil⟩ :=
      RowBefore.phrase (n := .function) (hin.rowBefore hws)
        (Nonterminal.isSpliced_eq_false (by decide))
    obtain rfl : us' = [] := hnil
    obtain rfl := List.singleton_inj.mp (Except.ok.inj hvalues)
    cases hin with
    | drop _ hfunction =>
      obtain ⟨x, hx, hvariant⟩ := hfunction.variant? rfl hws
      obtain rfl := List.mem_singleton.mp hx
      exact .inr (.inr (.inr hvariant))
  · exact .inr (.inl ⟨us, hreads, hus⟩)
  · exact .inl ⟨us, hreads, hus⟩

/-- What is no declaration is read as a statement. -/
theorem statement_of_declaration (h : Reads k [.phrase .declaration] w ts)
    (hbuild : Tree.buildAll Program.readLexeme ts = .ok [v]) (hv : v.isDeclaration = false) :
    ∃ us, Reads k [.phrase .statement] w us ∧ Tree.buildAll Program.readLexeme us = .ok [v] := by
  rcases h.of_declaration hbuild with hstatement | ⟨us, hreads, hus⟩ | hother | hother
  · exact hstatement
  · obtain ⟨x, hx, hvariant⟩ := hreads.variant? rfl hus
    obtain rfl := List.mem_singleton.mp hx
    rw [Value.isDeclaration_of_variant? hvariant (by simp)] at hv
    cases hv
  all_goals
    rw [Value.isDeclaration_of_variant? hother (by simp)] at hv
    cases hv

/-- The declaration of a variable is no statement. -/
theorem varDecl_of_declaration (h : Reads k [.phrase .declaration] w ts)
    (hbuild : Tree.buildAll Program.readLexeme ts = .ok [v])
    (hv : v.variant? = some .variableDeclaration) :
    ∃ us, Reads k [.phrase .varDecl] w us ∧ Tree.buildAll Program.readLexeme us = .ok [v] := by
  rcases h.of_declaration hbuild with ⟨us, hreads, hus⟩ | hvariable | hother | hother
  · have hdeclares : v.isDeclaration = false := ((hreads.rowBefore hus).last rfl rfl).declares
    rw [Value.isDeclaration_of_variant? hv (by simp)] at hdeclares
    cases hdeclares
  · exact hvariable
  all_goals cases hother.symm.trans hv

theorem exprStmt_of_statement (h : Reads k [.phrase .statement] w ts)
    (hbuild : Tree.buildAll Program.readLexeme ts = .ok [.expressionStatement e]) :
    ∃ us, Reads k [.phrase .exprStmt] w us ∧
      Tree.buildAll Program.readLexeme us = .ok [.expressionStatement e] := by
  have all_others : ∀ a ∈ [Nonterminal.exprStmt, .forStmt, .ifStmt, .printStmt, .returnStmt,
      .whileStmt, .block], a = .exprStmt ∨
        a.statementRule?.any fun r => !r.statementVariants.contains .expressionStatement := by
    decide
  obtain ⟨a, ha, us, hreads, hus⟩ :=
    h.of_oneOf (fun p hp => (Grammar.rows_of_mem hp).2.1) (by decide) hbuild
  rcases all_others a ha with rfl | hother
  · exact ⟨us, hreads, hus⟩
  · obtain ⟨r, hr, hne⟩ := (Option.any_eq_true _ _).mp hother
    obtain ⟨x, hx, hvariant⟩ := hreads.variant? hr hus
    obtain rfl := Option.some.inj hvariant
    rw [List.contains_iff_mem.mpr hx] at hne
    exact absurd hne Bool.false_ne_true

/-- An expression statement is an expression and a semicolon. -/
theorem of_exprStmt (h : Reads k [.phrase .exprStmt] w ts)
    (hbuild : Tree.buildAll Program.readLexeme ts = .ok [.expressionStatement e]) :
    ∃ u l us, w = u ++ [l] ∧ l.kind = .semicolon ∧ Reads .semicolon [.phrase .expression] u us ∧
      Tree.buildAll Program.readLexeme us = .ok [e] ∧ e.isExpression := by
  obtain ⟨p, hp, hphrase, us, ws, hin, hws, hvalues⟩ := h.exists_production hbuild
  obtain rfl := (Grammar.rows_of_mem hp).2.2.2 hphrase
  have hrow : Reads k ([Slot.phrase .expression] ++ [Slot.drop .semicolon]) w us := hin
  obtain ⟨u, rest, us, ts', rfl, rfl, hexpression, hrest⟩ := hrow.of_append
  cases hrest with
  | @drop _ _ l _ _ _ hl hnil =>
    cases hnil
    rw [List.append_nil] at hws
    obtain ⟨v, hv, heq⟩ := Shape.values_node.mp hvalues
    obtain rfl := List.singleton_inj.mp heq
    obtain ⟨e', us', rfl, -, hnil⟩ :=
      (hexpression.rowBefore hws).phrase Nonterminal.isSpliced_expression
    obtain rfl : us' = [] := hnil
    obtain ⟨hsort, heq⟩ := ofRule_exprStmt.mp (ofNode_rule.mp hv)
    obtain rfl := Value.expressionStatement.inj heq
    rw [upcoming_cons, hl] at hexpression
    exact ⟨u, l, us, rfl, hl, hexpression, hws, hsort⟩

end Reads

/-! ## Texts that are a single statement -/

/-- What the first lexeme of a text is spelled, if the text is read. -/
def Parsed.firstWord? (text : String) : Option String :=
  ((ofText text).toOption.bind (·.lexemes.head?)).map (·.text)

theorem Parsed.ne_of_firstWord? {text word : String} (h : firstWord? text ≠ some word)
    {parsed : Parsed} (hparsed : ofText text = .ok parsed) :
    ∀ l ∈ parsed.lexemes.head?, l.text ≠ word := by
  rintro l hl rfl
  refine h ?_
  rw [firstWord?, hparsed]
  exact congrArg (Option.map Lexeme.text) (Option.mem_def.mp hl)

/-- A text that is a program of one statement, and does not begin with a name that is
spelled `else`. -/
structure StandsFor (text : String) (v : Value) : Prop where
  ofText_eq : Program.ofText text = .ok [v]
  firstWord_ne : Parsed.firstWord? text ≠ some "else"

/-- Whether a text stands for a statement can be checked. -/
theorem exists_standsFor {text : String} {P : Value → Bool}
    (h : (Program.ofText text).toOption.any fun vs => vs.length == 1 && vs.all P)
    (hword : Parsed.firstWord? text ≠ some "else") : ∃ v, StandsFor text v ∧ P v := by
  cases hprogram : Program.ofText text with
  | error e =>
    rw [hprogram] at h
    exact nomatch h
  | ok vs =>
    rw [hprogram] at h
    obtain ⟨hlength, hall⟩ := Bool.and_eq_true_iff.mp h
    obtain ⟨v, rfl⟩ := List.length_eq_one_iff.mp (eq_of_beq hlength)
    exact ⟨v, ⟨hprogram, hword⟩, List.all_eq_true.mp hall v List.mem_cons_self⟩

/-- Such a text is read as one declaration. -/
theorem StandsFor.exists_declaration {s : String} (h : StandsFor s v) :
    ∃ parsed ts, Parsed.ofText s = .ok parsed ∧ (∀ l ∈ parsed.lexemes.head?, l.text ≠ "else") ∧
      Reads .endOfText [.phrase .declaration] parsed.lexemes ts ∧
      Tree.buildAll Program.readLexeme ts = .ok [v] ∧ v.isStatement := by
  obtain ⟨parsed, hparsed, -⟩ := Program.ofText_eq_ok.mp h.ofText_eq
  have helse := Parsed.ne_of_firstWord? h.firstWord_ne hparsed
  have hreads := Parsed.reads hparsed
  obtain ⟨ts, hts⟩ := hreads.exists_program
  have htree := List.singleton_inj.mp hts
  obtain ⟨hbuild, hstatements⟩ := (Program.ofText_eq_ok_of_tree hparsed htree).mp h.ofText_eq
  rw [htree] at hreads
  obtain ⟨n, hrow⟩ := Reads.program_iff.mp hreads
  have hsingle : Nonterminal.declaration.isSpliced = false :=
    Nonterminal.isSpliced_eq_false (by decide)
  have hvalues := hrow.rowBefore hbuild
  match n, hrow, hvalues with
  | 0, _, hvalues => exact nomatch (hvalues : [v] = [])
  | 1, hrow, _ =>
    exact ⟨parsed, ts, hparsed, helse, hrow, hbuild, hstatements v List.mem_cons_self⟩
  | n + 2, _, hvalues =>
    obtain ⟨u, us, heq, -, hrest⟩ := RowBefore.phrase hvalues hsingle
    obtain ⟨-, rfl⟩ := List.cons.inj heq
    obtain ⟨u, us, heq, -⟩ := RowBefore.phrase hrest hsingle
    exact nomatch heq

/-! ## Parts -/

open Progress Stack

/-- **A text that is scanned by itself as what a phrase reads is a part**, if these lexemes
stand in front of a program. -/
theorem exists_part {s : String} {q : Progress} (hscans : start.Scans .start 0 s.toList w q)
    (hreads : Reads k [.phrase n] w ts) (hn : (goto? 0 n).isSome) (hfirst : k ∉ n.first)
    (hbuild : Tree.buildAll Program.readLexeme ts = .ok [v])
    (helse : ∀ l ∈ w.head?, l.text ≠ "else")
    (hvisits : ∀ qs, (∀ k, k ≠ .elseWord → Lands k 0 [.phrase n] w ts qs) →
      ∃ ms rs r, start.Visits (w ++ ms) (qs ++ rs) r) :
    ∃ P : Part n s v, P.last = top q.stack := by
  obtain ⟨qs, hlands⟩ := hreads.lands_phrase hn
  obtain ⟨ms, rs, r, hwhole⟩ := hvisits qs fun k hk => hlands k 0 (.inr hk) hn
  obtain ⟨qs₁, qs₂, q₁, heq, hpart, -⟩ := hwhole.of_append
  obtain ⟨rfl, -⟩ := List.append_inj heq
    ((hlands k 0 (.inl rfl) hn).length_eq.trans hpart.length_eq.symm)
  obtain ⟨qs', hvisits', hcuts⟩ := hscans.cuts
  obtain rfl := hpart.states_eq hvisits'
  have hne : qs ≠ [] := by
    rintro rfl
    obtain rfl := List.eq_nil_of_length_eq_zero hpart.length_eq.symm
    exact hfirst hreads.upcoming_mem
  have hfound : ∀ u ∈ (w.map Lexeme.bare).head?, u.1 ∈ wanted 0 ∧ u.2 ≠ "else" := by
    cases hpart with
    | done => exact fun _ hu => nomatch hu
    | next hfeed _ =>
      rintro _ ⟨⟩
      exact ⟨mem_wanted_of_feed hfeed, helse _ rfl⟩
  let P : Part n s v := ⟨w, ts, qs, hne, fun k q hk hq => hlands k q (.inr hk) hq,
    fun q hq => hcuts.transfer hq hfound, hbuild⟩
  exact ⟨P, by rw [hvisits'.top_eq, ← P.getLastD_states]⟩

namespace Grammar

variable {a : Nonterminal}

theorem declaration_mem (ha : a ∈ [.classDecl, .funDecl, .varDecl, .statement]) :
    ⟨.declaration, [.phrase a], .nodeUnlessSingle (.other "declaration")⟩ ∈ productions := by
  refine mem_of_declarationRules ?_
  simp only [List.mem_cons, List.not_mem_nil, or_false] at ha
  rcases ha with rfl | rfl | rfl | rfl <;> simp [declarationRules, oneOf]

theorem statement_mem (ha : a ∈ [.exprStmt, .forStmt, .whileStmt, .block]) :
    ⟨.statement, [.phrase a], .nodeUnlessSingle (.other "statement")⟩ ∈ productions := by
  refine mem_of_statementRules ?_
  simp only [List.mem_cons, List.not_mem_nil, or_false] at ha
  rcases ha with rfl | rfl | rfl | rfl <;> simp [statementRules, oneOf]

theorem exprStmt_mem :
    named .exprStmt .exprStmt [.phrase .expression, .drop .semicolon] ∈ productions :=
  mem_of_statementRules (by simp [statementRules])

theorem declarations_mem :
    ⟨.declarations, [.phrase .declaration], .splice⟩ ∈ productions ∧
      ⟨.declarations, [.phrase .declarations, .phrase .declaration], .splice⟩ ∈ productions := by
  constructor <;> exact mem_of_declarationRules (by simp [declarationRules, listOf])

end Grammar

/-- What is checked of the table: where a text begins, these phrases can be finished. -/
theorem Automaton.goto_zero : ∀ n ∈ [Nonterminal.program, .declarations, .declaration, .classDecl,
    .varDecl, .statement, .exprStmt, .expression], (goto? 0 n).isSome := by
  decide +kernel

namespace Lands

variable {qs : List Nat}

/-- A statement or the declaration of a variable is read as a program. -/
theorem visits_statement (hn : n ∈ [.varDecl, .statement, .exprStmt])
    (h : Lands .endOfText 0 [.phrase n] w ts qs) : ∃ q, start.Visits w qs q := by
  have hdeclaration := goto_zero .declaration (by simp)
  have hrow : ∃ us, Lands .endOfText 0 [.phrase .declaration] w us qs := by
    simp only [List.mem_cons, List.not_mem_nil, or_false] at hn
    rcases hn with rfl | rfl | rfl
    · exact ⟨_, .production (Grammar.declaration_mem (by simp)) hdeclaration fun _ => h⟩
    · exact ⟨_, .production (Grammar.declaration_mem (by simp)) hdeclaration fun _ => h⟩
    · have hs := Lands.production (Grammar.statement_mem (by simp))
        (goto_zero .statement (by simp)) fun _ => h
      exact ⟨_, .production (Grammar.declaration_mem (by simp)) hdeclaration fun _ => hs⟩
  obtain ⟨us, hus⟩ := hrow
  have hlist := Lands.production Grammar.declarations_mem.1 (goto_zero .declarations (by simp))
    fun _ => hus
  obtain ⟨q, hvisits, -⟩ := exists_visits
    (.production Grammar.program_mem.2 (goto_zero .program (by simp)) fun _ => hlist)
  exact ⟨q, hvisits⟩

/-- An expression is, with a semicolon after it. -/
theorem visits_expression {l : Lexeme} (hl : l.kind = .semicolon)
    (h : Lands .semicolon 0 [.phrase .expression] w ts qs) :
    ∃ r q, start.Visits (w ++ [l]) (qs ++ [r]) q := by
  have hbegin := goto_zero .exprStmt (by simp)
  obtain ⟨last, hlast⟩ := Option.isSome_iff_exists.mp hbegin
  obtain ⟨_, hwalk, -⟩ := walk_of_goto hlast Grammar.exprStmt_mem
  obtain ⟨r, hr, hwalk⟩ := walk?_cons hwalk
  obtain ⟨r', hr', -⟩ := walk?_cons hwalk
  have hbefore : Lands (upcoming .endOfText [l]) 0 [.phrase .expression] w ts qs := by
    rwa [upcoming_cons, hl]
  have hsemicolon : Lands .endOfText r [.drop .semicolon] [l] [] [r'] := .drop hl hr' .done
  have hrow := hbefore.append ((walk?_singleton 0 _).trans hr) hsemicolon
  obtain ⟨q, hvisits⟩ := visits_statement (n := .exprStmt) (by simp)
    (.production Grammar.exprStmt_mem hbegin fun _ => hrow)
  exact ⟨r', q, hvisits⟩

end Lands

/-- **A program that is read as a phrase is a part**, and other statements can come after
it. -/
theorem Program.exists_part {s : String} {parsed : Parsed}
    (hn : n ∈ [.varDecl, .statement, .exprStmt]) (h : Parsed.ofText s = .ok parsed)
    (hreads : Reads .endOfText [.phrase n] parsed.lexemes ts)
    (hbuild : Tree.buildAll readLexeme ts = .ok [v])
    (helse : ∀ l ∈ parsed.lexemes.head?, l.text ≠ "else") :
    ∃ P : Part n s v, opens P.last := by
  have hgoto : (goto? 0 n).isSome := by
    refine goto_zero n ?_
    simp only [List.mem_cons, List.not_mem_nil, or_false] at hn
    rcases hn with rfl | rfl | rfl <;> simp
  have all_begin : ∀ n ∈ [Nonterminal.varDecl, .statement, .exprStmt], .endOfText ∉ n.first := by
    decide
  obtain ⟨q, hscans, hfinish⟩ := Parsed.scans h
  obtain ⟨P, hP⟩ := LoxForms.exists_part hscans hreads hgoto (all_begin n hn) hbuild helse
    fun qs hlands => by
      obtain ⟨r, hvisits⟩ := (hlands .endOfText (by decide)).visits_statement hn
      exact ⟨[], [], r, by rwa [List.append_nil, List.append_nil]⟩
  exact ⟨P, hP ▸ (hscans.atEnd hfinish).opens⟩

/-- Nothing but a semicolon is scanned of a semicolon. -/
theorem Progress.Scans.length_eq {p q : Progress} {here : Place} {ls : List Lexeme}
    (h : p.Scans here 0 [';'] ls q) : ls.length = 1 := by
  cases h with
  | gap hread => exact nomatch Lexeme.read_eq_gap.mp hread
  | @token _ _ _ _ _ _ l _ _ _ _ _ hrest =>
    generalize l.text.toList.length - 1 = skip at hrest
    cases hrest
    rfl

/-- **What comes before the semicolon of an expression statement is a part.** -/
theorem StandsFor.exists_part_expression {s : String}
    (h : StandsFor (s ++ "\n;") (.expressionStatement e)) :
    Nonempty (Part .expression s e) ∧ e.isExpression := by
  obtain ⟨parsed, ts, hparsed, helse, hdeclaration, hbuild, -⟩ := h.exists_declaration
  obtain ⟨us, hreads, hus⟩ := hdeclaration.statement_of_declaration hbuild rfl
  obtain ⟨us, hreads, hus⟩ := hreads.exprStmt_of_statement hus
  obtain ⟨u, l, vs, hword, hl, hexpression, hvs, hsort⟩ := hreads.of_exprStmt hus
  refine ⟨?_, hsort⟩
  -- the lexemes before the semicolon are scanned before the break
  obtain ⟨q, hscans, -⟩ := Parsed.scans hparsed
  rw [String.toList_append] at hscans
  have hlines : start.Scans .start 0 (s.toList ++ '\n' :: [';']) parsed.lexemes q := hscans
  obtain ⟨ls₁, ls₂, q₁, there, hsplit, hfirst, hsecond⟩ :=
    hlines.of_append_line (by decide) (Nat.zero_le _)
  obtain ⟨l₂, rfl⟩ := List.length_eq_one_iff.mp hsecond.length_eq
  obtain ⟨rfl, -⟩ := List.append_inj' (hword.symm.trans hsplit) rfl
  have hbegin : .semicolon ∉ Nonterminal.expression.first := by decide
  have hhead : ∀ j ∈ u.head?, j.text ≠ "else" := by
    intro j hj
    refine helse j ?_
    rw [hword, List.head?_append, Option.mem_def.mp hj]
    rfl
  obtain ⟨P, -⟩ := LoxForms.exists_part hfirst hexpression (goto_zero .expression (by simp)) hbegin
    hvs hhead fun qs hlands => by
      obtain ⟨r, q, hvisits⟩ := (hlands .semicolon (by decide)).visits_expression hl
      exact ⟨[l], [r], q, hvisits⟩
  exact ⟨P⟩

end LoxForms
