import LoxForms.Program.Building
/-!
# What each rule asks and makes

For the places that a rule has, and then for each rule: what it takes to get a
value out of it, and which value that is. Whoever needs to know what becomes of
a node can look it up here, without going through the rule's steps again. And
which rules refuse something as forbidden: three of them, and no place does.
-/

namespace LoxForms

namespace Value

theorem ne_nil_of_isExpression {e : Value} (h : e.isExpression) : e ≠ nil := by
  rintro rfl
  exact absurd h (by decide)

theorem ne_nil_of_isStatement {s : Value} (h : s.isStatement) : s ≠ nil := by
  rintro rfl
  exact absurd h (by decide)

end Value

namespace Building

/-- A step that is taken after another one. -/
theorem bind_eq_ok {ε α β : Type} {x : Except ε α} {f : α → Except ε β} {b : β} :
    x >>= f = .ok b ↔ ∃ a, x = .ok a ∧ f a = .ok b := by
  cases x with
  | error e => simp [bind, Except.bind]
  | ok a => simp [bind, Except.bind]

theorem pure_eq_ok {ε α : Type} {a b : α} : (pure a : Except ε α) = .ok b ↔ b = a := by
  constructor
  · intro h
    exact (Except.ok.inj h).symm
  · rintro rfl
    rfl

/-! ## Places -/

section

variable {u v : Value} {us vs : List Value}

theorem require_eq_ok {b : Bool} {x : Unit} : require b = .ok x ↔ b := by
  unfold require
  split <;> simp_all

theorem expression_eq_ok : expression v = .ok u ↔ v.isExpression ∧ u = v := by
  simp only [expression, bind_eq_ok, require_eq_ok, exists_const, pure_eq_ok]

theorem statement_eq_ok : statement v = .ok u ↔ v.isStatement ∧ u = v := by
  simp only [statement, bind_eq_ok, require_eq_ok, exists_const, pure_eq_ok]

theorem token_eq_ok : token v = .ok u ↔ v.isToken ∧ u = v := by
  simp only [token, bind_eq_ok, require_eq_ok, exists_const, pure_eq_ok]

/-- A value for a place that can be left empty. -/
def Optional (sort : Value → Bool) (v : Value) : Prop := v = .nil ∨ sort v

theorem optional_eq_ok {place : Value → Except Refusal Value} {sort : Value → Bool}
    (hplace : ∀ v u, place v = .ok u ↔ sort v ∧ u = v) :
    optional place v = .ok u ↔ Optional sort v ∧ u = v := by
  unfold optional Optional
  split
  · simp only [Except.ok.injEq, true_or, true_and]
    exact eq_comm
  · rename_i hne
    rw [hplace, or_iff_right hne]

theorem optional_expression_eq_ok :
    optional expression v = .ok u ↔ Optional Value.isExpression v ∧ u = v :=
  optional_eq_ok fun _ _ => expression_eq_ok

theorem optional_statement_eq_ok :
    optional statement v = .ok u ↔ Optional Value.isStatement v ∧ u = v :=
  optional_eq_ok fun _ _ => statement_eq_ok

/-- A value for a place that takes a list, and the items of the list. -/
def Listed (v : Value) (items : List Value) : Prop := (v = .nil ∧ items = []) ∨ v = .list items

theorem listOrNil_eq_ok : listOrNil v = .ok u ↔ ∃ items, Listed v items ∧ u = .list items := by
  unfold listOrNil Listed
  split <;> simp_all [eq_comm]

theorem base_eq_ok : base v = .ok u ↔ (∃ name, v = .variableName name) ∧ u = v := by
  unfold base
  split <;> simp_all [eq_comm]

theorem optional_base_eq_ok :
    optional base v = .ok u ↔ (v = .nil ∨ ∃ name, v = .variableName name) ∧ u = v := by
  unfold optional
  split
  · simp only [Except.ok.injEq, true_or, true_and]
    exact eq_comm
  · rename_i hne
    rw [base_eq_ok, or_iff_right hne]

theorem method_eq_ok : method v = .ok u ↔
    (∃ name params body, v = .functionDeclaration name params body) ∧ u = v := by
  unfold method
  split <;> simp_all [eq_comm]

theorem blockStatements_eq_ok : blockStatements v = .ok u ↔ v = .block u := by
  unfold blockStatements
  split <;> simp_all

theorem tokenLiteral_eq_ok :
    tokenLiteral v = .ok u ↔ ∃ k text line, v = .token k text u line := by
  unfold tokenLiteral
  split <;> simp_all

/-- Going through the children of a rule changes none of them. -/
theorem mapM_eq_ok {place : Value → Except Refusal Value} {P : Value → Prop}
    (hplace : ∀ v u, place v = .ok u ↔ P v ∧ u = v) :
    vs.mapM place = .ok us ↔ (∀ v ∈ vs, P v) ∧ us = vs := by
  induction vs generalizing us with
  | nil => simp [pure_eq_ok]
  | cons v vs ih =>
    simp only [List.mapM_cons, bind_eq_ok, hplace, ih, pure_eq_ok, List.forall_mem_cons]
    constructor
    · rintro ⟨_, ⟨hv, rfl⟩, _, ⟨hvs, rfl⟩, rfl⟩
      exact ⟨⟨hv, hvs⟩, rfl⟩
    · rintro ⟨⟨hv, hvs⟩, rfl⟩
      exact ⟨v, ⟨hv, rfl⟩, vs, ⟨hvs, rfl⟩, rfl⟩

theorem limited_eq_ok {violation : Violation} {place : Value → Except Refusal Value}
    {P : Value → Prop} (hplace : ∀ v u, place v = .ok u ↔ P v ∧ u = v) :
    limited violation place vs = .ok u ↔
      vs.length ≤ argumentLimit ∧ (∀ v ∈ vs, P v) ∧ u = .list vs := by
  unfold limited
  split
  · rename_i hlen
    simp only [reduceCtorEq, false_iff, not_and]
    omega
  · rename_i hlen
    simp only [bind_eq_ok, mapM_eq_ok hplace, pure_eq_ok, Nat.not_lt.mp hlen, true_and]
    constructor
    · rintro ⟨_, ⟨h, rfl⟩, rfl⟩
      exact ⟨h, rfl⟩
    · rintro ⟨h, rfl⟩
      exact ⟨vs, ⟨h, rfl⟩, rfl⟩

theorem assignment_eq_ok {value : Value} : assignment value v = .ok u ↔
    (∃ name, v = .variableName name ∧ u = .assign name value) ∨
    ∃ target name, v = .get target name ∧ u = .set target name value := by
  unfold assignment
  split <;> simp_all [eq_comm, and_assoc]

end

/-! ## Rules -/

section

variable {v name initializer condition body superclass params operator left right target : Value}
variable {e thenBranch elseBranch value callee arguments t s increment : Value}
variable {us rest methods : List Value} {join : Value → Value → Value → Value}

theorem ofRule_start :
    ofRule .start us = .ok v ↔ (∀ s ∈ us, s.isStatement) ∧ v = .list us := by
  show (do return .list (← us.mapM statement) : Except _ _) = .ok v ↔ _
  simp only [bind_eq_ok, mapM_eq_ok fun _ _ => statement_eq_ok, pure_eq_ok]
  simp only [and_assoc, exists_and_left, exists_eq_left]

theorem ofRule_classDecl : ofRule .classDecl (name :: superclass :: methods) = .ok v ↔
    name.isToken ∧ (superclass = .nil ∨ ∃ base, superclass = .variableName base) ∧
      (∀ m ∈ methods, ∃ name params body, m = .functionDeclaration name params body) ∧
      v = .classDeclaration name superclass (.list methods) := by
  show (do
    let name ← token name
    let superclass ← optional base superclass
    return .classDeclaration name superclass (.list (← methods.mapM method)) : Except _ _) = .ok v ↔ _
  simp only [bind_eq_ok, token_eq_ok, optional_base_eq_ok,
    mapM_eq_ok fun _ _ => method_eq_ok, pure_eq_ok]
  simp only [and_assoc, exists_and_left, exists_eq_left]

theorem ofRule_superclass :
    ofRule .superclass [name] = .ok v ↔ name.isToken ∧ v = .variableName name := by
  show (do return .variableName (← token name) : Except _ _) = .ok v ↔ _
  simp only [bind_eq_ok, token_eq_ok, pure_eq_ok]
  simp only [and_assoc, exists_and_left, exists_eq_left]

theorem ofRule_function : ofRule .function [name, params, body] = .ok v ↔
    name.isToken ∧ ∃ statements, body = .block statements ∧
      ∃ items, Listed params items ∧ v = .functionDeclaration name (.list items) statements := by
  show (do
    let name ← token name
    let statements ← blockStatements body
    return .functionDeclaration name (← listOrNil params) statements : Except _ _) = .ok v ↔ _
  simp only [bind_eq_ok, token_eq_ok, blockStatements_eq_ok, listOrNil_eq_ok, pure_eq_ok]
  constructor
  · rintro ⟨_, ⟨hname, rfl⟩, statements, hbody, _, ⟨items, hitems, rfl⟩, rfl⟩
    exact ⟨hname, statements, hbody, items, hitems, rfl⟩
  · rintro ⟨hname, statements, hbody, items, hitems, rfl⟩
    exact ⟨name, ⟨hname, rfl⟩, statements, hbody, _, ⟨items, hitems, rfl⟩, rfl⟩

theorem ofRule_parameters : ofRule .parameters us = .ok v ↔
    us.length ≤ argumentLimit ∧ (∀ t ∈ us, t.isToken) ∧ v = .list us :=
  limited_eq_ok fun _ _ => token_eq_ok

theorem ofRule_varDecl : ofRule .varDecl [name, initializer] = .ok v ↔
    name.isToken ∧ Optional Value.isExpression initializer ∧
      v = .variableDeclaration name initializer := by
  show (do return .variableDeclaration (← token name) (← optional expression initializer) : Except _ _) = .ok v ↔ _
  simp only [bind_eq_ok, token_eq_ok, optional_expression_eq_ok, pure_eq_ok]
  simp only [and_assoc, exists_and_left, exists_eq_left]

theorem ofRule_exprStmt :
    ofRule .exprStmt [e] = .ok v ↔ e.isExpression ∧ v = .expressionStatement e := by
  show (do return .expressionStatement (← expression e) : Except _ _) = .ok v ↔ _
  simp only [bind_eq_ok, expression_eq_ok, pure_eq_ok]
  simp only [and_assoc, exists_and_left, exists_eq_left]

theorem ofRule_printStmt :
    ofRule .printStmt [e] = .ok v ↔ e.isExpression ∧ v = .print e := by
  show (do return .print (← expression e) : Except _ _) = .ok v ↔ _
  simp only [bind_eq_ok, expression_eq_ok, pure_eq_ok]
  simp only [and_assoc, exists_and_left, exists_eq_left]

theorem ofRule_returnStmt :
    ofRule .returnStmt [e] = .ok v ↔ Optional Value.isExpression e ∧ v = .returnStatement e := by
  show (do return .returnStatement (← optional expression e) : Except _ _) = .ok v ↔ _
  simp only [bind_eq_ok, optional_expression_eq_ok, pure_eq_ok]
  simp only [and_assoc, exists_and_left, exists_eq_left]

theorem ofRule_block :
    ofRule .block us = .ok v ↔ (∀ s ∈ us, s.isStatement) ∧ v = .block (.list us) := by
  show (do return .block (.list (← us.mapM statement)) : Except _ _) = .ok v ↔ _
  simp only [bind_eq_ok, mapM_eq_ok fun _ _ => statement_eq_ok, pure_eq_ok]
  simp only [and_assoc, exists_and_left, exists_eq_left]

theorem ofRule_ifStmt : ofRule .ifStmt [condition, thenBranch, elseBranch] = .ok v ↔
    condition.isExpression ∧ thenBranch.isStatement ∧ Optional Value.isStatement elseBranch ∧
      v = .ifStatement condition thenBranch elseBranch := by
  show (do
    let condition ← expression condition
    let thenBranch ← statement thenBranch
    return .ifStatement condition thenBranch (← optional statement elseBranch) : Except _ _) = .ok v ↔ _
  simp only [bind_eq_ok, expression_eq_ok, statement_eq_ok, optional_statement_eq_ok,
    pure_eq_ok]
  simp only [and_assoc, exists_and_left, exists_eq_left]

theorem ofRule_whileStmt : ofRule .whileStmt [condition, body] = .ok v ↔
    condition.isExpression ∧ body.isStatement ∧ v = .whileStatement condition body := by
  show (do return .whileStatement (← expression condition) (← statement body) : Except _ _) = .ok v ↔ _
  simp only [bind_eq_ok, expression_eq_ok, statement_eq_ok, pure_eq_ok]
  simp only [and_assoc, exists_and_left, exists_eq_left]

theorem ofRule_forInitializer :
    ofRule .forInitializer [s] = .ok v ↔ s.isStatement ∧ v = s :=
  statement_eq_ok

theorem ofRule_forStmt :
    ofRule .forStmt [initializer, condition, increment, body] = .ok v ↔
      body.isStatement ∧ Optional Value.isExpression increment ∧
        Optional Value.isExpression condition ∧ Optional Value.isStatement initializer ∧
        v = forLoop initializer condition increment body := by
  show (do
    let body ← statement body
    let increment ← optional expression increment
    let condition ← optional expression condition
    return forLoop (← optional statement initializer) condition increment body : Except _ _) = .ok v ↔ _
  simp only [bind_eq_ok, statement_eq_ok, optional_expression_eq_ok,
    optional_statement_eq_ok, pure_eq_ok]
  simp only [and_assoc, exists_and_left, exists_eq_left]

theorem ofRule_assign : ofRule .assign [target, value] = .ok v ↔
    value.isExpression ∧
      ((∃ name, target = .variableName name ∧ v = .assign name value) ∨
        ∃ owner name, target = .get owner name ∧ v = .set owner name value) := by
  show (do assignment (← expression value) target : Except _ _) = .ok v ↔ _
  simp only [bind_eq_ok, expression_eq_ok, assignment_eq_ok]
  simp only [and_assoc, exists_and_left, exists_eq_left]

theorem fold_eq_ok : fold join (left :: rest) = .ok v ↔
    left.isExpression ∧ foldRest join left rest = .ok v := by
  simp only [fold, bind_eq_ok, expression_eq_ok]
  simp only [and_assoc, exists_and_left, exists_eq_left]

theorem foldRest_eq_ok : foldRest join left (operator :: right :: rest) = .ok v ↔
    operator.isToken ∧ right.isExpression ∧
      foldRest join (join left operator right) rest = .ok v := by
  simp only [foldRest, bind_eq_ok, token_eq_ok, expression_eq_ok]
  simp only [and_assoc, exists_and_left, exists_eq_left]

theorem ofRule_unary : ofRule .unary [operator, right] = .ok v ↔
    operator.isToken ∧ right.isExpression ∧ v = .unary operator right := by
  show (do return .unary (← token operator) (← expression right) : Except _ _) = .ok v ↔ _
  simp only [bind_eq_ok, token_eq_ok, expression_eq_ok, pure_eq_ok]
  simp only [and_assoc, exists_and_left, exists_eq_left]

theorem ofRule_call : ofRule .call [callee, arguments] = .ok v ↔
    ∃ items, Listed arguments items ∧ callee.isExpression ∧ v = .call callee (.list items) := by
  show (do
    let arguments ← listOrNil arguments
    return .call (← expression callee) arguments : Except _ _) = .ok v ↔ _
  simp only [bind_eq_ok, listOrNil_eq_ok, expression_eq_ok, pure_eq_ok]
  constructor
  · rintro ⟨_, ⟨items, hitems, rfl⟩, _, ⟨hcallee, rfl⟩, rfl⟩
    exact ⟨items, hitems, hcallee, rfl⟩
  · rintro ⟨items, hitems, hcallee, rfl⟩
    exact ⟨_, ⟨items, hitems, rfl⟩, callee, ⟨hcallee, rfl⟩, rfl⟩

theorem ofRule_arguments : ofRule .arguments us = .ok v ↔
    us.length ≤ argumentLimit ∧ (∀ e ∈ us, e.isExpression) ∧ v = .list us :=
  limited_eq_ok fun _ _ => expression_eq_ok

theorem ofRule_get : ofRule .get [target, name] = .ok v ↔
    name.isToken ∧ target.isExpression ∧ v = .get target name := by
  show (do
    let name ← token name
    return .get (← expression target) name : Except _ _) = .ok v ↔ _
  simp only [bind_eq_ok, token_eq_ok, expression_eq_ok, pure_eq_ok]
  simp only [and_assoc, exists_and_left, exists_eq_left]

theorem ofRule_number : ofRule .number [t] = .ok v ↔
    ∃ k text literal line, t = .token k text literal line ∧ v = .literal literal := by
  show (do return .literal (← tokenLiteral t) : Except _ _) = .ok v ↔ _
  simp only [bind_eq_ok, tokenLiteral_eq_ok, pure_eq_ok]
  constructor
  · rintro ⟨literal, ⟨k, text, line, rfl⟩, rfl⟩
    exact ⟨k, text, literal, line, rfl, rfl⟩
  · rintro ⟨k, text, literal, line, rfl, rfl⟩
    exact ⟨literal, ⟨k, text, line, rfl⟩, rfl⟩

theorem ofRule_string : ofRule .string [t] = .ok v ↔
    ∃ k text literal line, t = .token k text literal line ∧ v = .literal literal :=
  ofRule_number

theorem ofRule_variableName :
    ofRule .variableName [name] = .ok v ↔ name.isToken ∧ v = .variableName name := by
  show (do return .variableName (← token name) : Except _ _) = .ok v ↔ _
  simp only [bind_eq_ok, token_eq_ok, pure_eq_ok]
  simp only [and_assoc, exists_and_left, exists_eq_left]

theorem ofRule_grouping : ofRule .grouping [e] = .ok v ↔ e.isExpression ∧ v = .grouping e := by
  show (do return .grouping (← expression e) : Except _ _) = .ok v ↔ _
  simp only [bind_eq_ok, expression_eq_ok, pure_eq_ok]
  simp only [and_assoc, exists_and_left, exists_eq_left]

theorem ofRule_superExpr :
    ofRule .superExpr [name] = .ok v ↔ name.isToken ∧ v = .super name := by
  show (do return .super (← token name) : Except _ _) = .ok v ↔ _
  simp only [bind_eq_ok, token_eq_ok, pure_eq_ok]
  simp only [and_assoc, exists_and_left, exists_eq_left]

end

theorem mapError_eq_ok {ε ε' α : Type} {x : Except ε α} {f : ε → ε'} {a : α} :
    x.mapError f = .ok a ↔ x = .ok a := by
  cases x with
  | error e =>
    show Except.error (f e) = .ok a ↔ _
    simp
  | ok b =>
    show Except.ok b = .ok a ↔ _
    simp

theorem ofNode_rule {r : Rule} {us : List Value} {v : Value} :
    ofNode (.rule r) us = .ok v ↔ ofRule r us = .ok v :=
  mapError_eq_ok

/-! ## What is forbidden -/

section

variable {ε α β : Type} {v : Violation} {r : Rule} {us : List Value} {u left : Value}

theorem bind_eq_error {x : Except ε α} {f : α → Except ε β} {e : ε} :
    x >>= f = .error e ↔ x = .error e ∨ ∃ a, x = .ok a ∧ f a = .error e := by
  cases x with
  | error e' => simp [bind, Except.bind]
  | ok a => simp [bind, Except.bind]

theorem pure_ne_error {a : α} {e : ε} : (pure a : Except ε α) ≠ .error e := nofun

/-- A place that takes some values refuses the others as misplaced. -/
theorem expression_ne : expression u ≠ .error (.violation v) := by
  unfold expression require
  split <;> nofun

theorem statement_ne : statement u ≠ .error (.violation v) := by
  unfold statement require
  split <;> nofun

theorem token_ne : token u ≠ .error (.violation v) := by
  unfold token require
  split <;> nofun

theorem optional_ne {place : Value → Except Refusal Value}
    (hplace : place u ≠ .error (.violation v)) : optional place u ≠ .error (.violation v) := by
  unfold optional
  split
  · nofun
  · exact hplace

theorem listOrNil_ne : listOrNil u ≠ .error (.violation v) := by
  unfold listOrNil
  split <;> nofun

theorem base_ne : base u ≠ .error (.violation v) := by
  unfold base
  split <;> nofun

theorem method_ne : method u ≠ .error (.violation v) := by
  unfold method
  split <;> nofun

theorem blockStatements_ne : blockStatements u ≠ .error (.violation v) := by
  unfold blockStatements
  split <;> nofun

theorem tokenLiteral_ne : tokenLiteral u ≠ .error (.violation v) := by
  unfold tokenLiteral
  split <;> nofun

theorem mapM_ne {place : Value → Except Refusal Value}
    (hplace : ∀ u, place u ≠ .error (.violation v)) :
    us.mapM place ≠ .error (.violation v) := by
  induction us with
  | nil => exact pure_ne_error
  | cons u us ih =>
    simp only [List.mapM_cons, ne_eq, bind_eq_error, hplace, ih, pure_ne_error, false_or, and_false,
      exists_false, not_false_eq_true]

theorem foldRest_ne {join : Value → Value → Value → Value} :
    foldRest join left us ≠ .error (.violation v) := by
  induction left, us using foldRest.induct join with
  | case1 left => nofun
  | case2 left operator =>
    simp only [foldRest, ne_eq, bind_eq_error, token_ne, false_or, not_exists, not_and]
    rintro _ _ h
    exact nomatch h
  | case3 left operator right rest ih =>
    simp only [foldRest, ne_eq, bind_eq_error, token_ne, expression_ne, false_or, not_exists, not_and]
    rintro o - r -
    exact ih o r

theorem fold_ne {join : Value → Value → Value → Value} :
    fold join us ≠ .error (.violation v) := by
  cases us with
  | nil => nofun
  | cons first rest =>
    simp only [fold, ne_eq, bind_eq_error, expression_ne, foldRest_ne, and_false, exists_false,
      or_self, not_false_eq_true]

/-- **Only three rules forbid anything.** -/
theorem rule_of_violation (h : ofRule r us = .error (.violation v)) :
    r = .assign ∨ r = .arguments ∨ r = .parameters := by
  by_cases hassign : r = .assign
  · exact .inl hassign
  by_cases harguments : r = .arguments
  · exact .inr (.inl harguments)
  by_cases hparameters : r = .parameters
  · exact .inr (.inr hparameters)
  exfalso
  fun_cases ofRule r us
  -- any other rule goes through places only, one after the other
  all_goals first
    | contradiction
    | exact fold_ne h
    | simp only [ofRule, bind_eq_error, mapM_ne fun _ => statement_ne, mapM_ne fun _ => method_ne,
        expression_ne, statement_ne, token_ne, optional_ne expression_ne, optional_ne statement_ne,
        optional_ne base_ne, listOrNil_ne, blockStatements_ne, tokenLiteral_ne, pure_ne_error,
        and_false, exists_false, or_self, Except.error.injEq, reduceCtorEq, *] at h

end

end Building

end LoxForms
