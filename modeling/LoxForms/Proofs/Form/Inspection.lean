import LoxForms.Proofs.Form.Rendered
/-!
# What a form asks of a tree

The form of a node is put together from the texts of its fields. `fields` has for each
variant what is asked of its fields, in the order in which they are looked at; `layout`
has how the node is written, given their texts. One equation ties both to the form
(`parts_node`), and another one (`look_eq`) tells what there is to see of any value of
which something is asked: texts, something wrong, more values to look at, or a node.
What follows about forms follows from these two.
-/

namespace LoxForms

namespace Form

open Value

/-- What is asked of the value of a field, or of one that it holds. -/
inductive Demand where
  | token
  /-- Something to go through that holds tokens only. -/
  | tokens
  /-- Something that a literal can hold. -/
  | constant
  /-- A part of a form. -/
  | part
  /-- A part of a form, or nothing. -/
  | optionalPart
  /-- A superclass, or nothing. -/
  | base
  /-- Something to go through that holds members only. -/
  | members (m : Members)
  | member (m : Members)

/-- What is asked of the fields of a node, in the order in which they are looked at. -/
def fields : Value → List (Demand × Value)
  | .binary left operator right | .logical left operator right =>
    [(.token, operator), (.part, left), (.part, right)]
  | .grouping e | .expressionStatement e | .print e => [(.part, e)]
  | .literal value => [(.constant, value)]
  | .unary operator right => [(.token, operator), (.part, right)]
  | .variableName name | .super name => [(.token, name)]
  | .assign name value => [(.token, name), (.part, value)]
  | .call callee arguments => [(.part, callee), (.part, arguments)]
  | .get owner name => [(.token, name), (.part, owner)]
  | .set owner name value => [(.token, name), (.part, owner), (.part, value)]
  | .returnStatement value => [(.optionalPart, value)]
  | .variableDeclaration name initializer => [(.token, name), (.optionalPart, initializer)]
  | .block statements => [(.members .nodes, statements)]
  | .ifStatement condition thenBranch elseBranch =>
    [(.part, condition), (.part, thenBranch), (.optionalPart, elseBranch)]
  | .whileStatement condition body => [(.part, condition), (.part, body)]
  | .functionDeclaration name params body =>
    [(.tokens, params), (.members .nodes, body), (.token, name)]
  | .classDeclaration name superclass methods =>
    [(.token, name), (.base, superclass), (.members .methods, methods)]
  | _ => []

/-- How a node is written, given the texts of its fields. -/
def layout : Value → List (List String) → String
  | .binary .., [[operator], left, right] | .logical .., [[operator], left, right] =>
    parenthesized operator (left ++ right)
  | .grouping _, [e] => parenthesized "group" e
  | .literal _, [[s]] => s
  | .unary .., [[operator], right] => parenthesized operator right
  | .variableName _, [[name]] => name
  | .assign .., [[name], value] => parenthesized "=" (name :: value)
  | .call .., [callee, arguments] => parenthesized "call" (callee ++ arguments)
  | .get .., [[name], owner] => parenthesized "." (owner ++ [name])
  | .set .., [[name], owner, value] => parenthesized "=" (owner ++ name :: value)
  | .super _, [[method]] => parenthesized "super" [method]
  | .this, [] => "this"
  | .expressionStatement _, [e] => parenthesized ";" e
  | .print _, [e] => parenthesized "print" e
  | .returnStatement _, [value] => parenthesized "return" value
  | .variableDeclaration _ .nil, [[name], _] => parenthesized "var" [name]
  | .variableDeclaration .., [[name], initializer] =>
    parenthesized "var" (name :: "=" :: initializer)
  | .block _, [statements] => "(block " ++ String.join statements ++ ")"
  | .ifStatement _ _ .nil, [condition, thenBranch, _] =>
    parenthesized "if" (condition ++ thenBranch)
  | .ifStatement .., [condition, thenBranch, elseBranch] =>
    parenthesized "if-else" (condition ++ thenBranch ++ elseBranch)
  | .whileStatement .., [condition, body] => parenthesized "while" (condition ++ body)
  | .functionDeclaration .., [params, body, [name]] =>
    "(fun " ++ name ++ "(" ++ " ".intercalate params ++ ") " ++ String.join body ++ ")"
  | .classDeclaration .., [[name], base, methods] =>
    "(class" ++ name ++ String.join (base.map (" < " ++ ·)) ++
      String.join (methods.map (" " ++ ·)) ++ ")"
  | _, _ => ""

/-- The texts of a value of which something is asked. -/
def look : Demand → Value → Except Fault (List String)
  | .token, v => return [← lexeme v]
  | .tokens, v => lexemes v
  | .constant, v => return [← literal v]
  | .part, v => parts v
  | .optionalPart, .nil => .ok []
  | .optionalPart, v => parts v
  | .base, .nil => .ok []
  | .base, .variableName name => parts (.variableName name)
  | .base, v => flawed (.notSuperclass v.typeName)
  | .members m, v => forms m v
  | .member m, v => if m.includes v then parts v else m.refuse v

variable {d : Demand} {v : Value} {m : Members}

/-! ## The fields of a node -/

section

theorem look_token (v : Value) : look .token v = return [← lexeme v] := rfl

theorem look_tokens (v : Value) : look .tokens v = lexemes v := rfl

theorem look_constant (v : Value) : look .constant v = return [← literal v] := rfl

theorem look_part (v : Value) : look .part v = parts v := rfl

theorem look_members (m : Members) (v : Value) : look (.members m) v = forms m v := rfl

theorem look_noPart : look .optionalPart .nil = .ok [] := rfl

theorem look_optionalPart (h : v ≠ .nil) : look .optionalPart v = parts v := by
  cases v <;> first | rfl | exact absurd rfl h

theorem layout_variableDeclaration {name : Value} {s : String} {ts : List String} (h : v ≠ .nil) :
    layout (.variableDeclaration name v) [[s], ts] = parenthesized "var" (s :: "=" :: ts) := by
  cases v <;> first | rfl | exact absurd rfl h

theorem layout_ifStatement {c t : Value} {ts ts' ts'' : List String} (h : v ≠ .nil) :
    layout (.ifStatement c t v) [ts, ts', ts''] = parenthesized "if-else" (ts ++ ts' ++ ts'') := by
  cases v <;> first | rfl | exact absurd rfl h

theorem extending_eq (v : Value) :
    extending v = return String.join ((← look .base v).map (" < " ++ ·)) := by
  cases v with
  | variableName name =>
    rw [extending, look, parts, node]
    cases within .variableName (lexeme name) with
    | error e => rfl
    | ok s => simp [pure, bind, Except.pure, Except.bind, String.join_cons]
  | _ => rfl

/-- **A node is laid out from its fields**, which are looked at one after the other. -/
theorem parts_node {variant : Variant} (h : v.variant? = some variant) :
    parts v = node variant do return layout v (← (fields v).mapM fun f => look f.1 f.2) := by
  cases v <;> simp only [variant?, reduceCtorEq, Option.some.injEq] at h <;> subst h
  -- An optional field that holds nothing changes the layout.
  case returnStatement u =>
    by_cases hu : u = .nil
    · subst hu
      rfl
    · rw [parts_returnStatement hu, fields, List.mapM_cons, look_optionalPart hu]
      simp only [List.mapM_nil, bind_assoc, pure_bind, layout]
  case variableDeclaration name u =>
    by_cases hu : u = .nil
    · subst hu
      rw [parts]
      simp only [fields, List.mapM_cons, List.mapM_nil, look_token, look_noPart, bind_assoc,
        pure_bind]
      rfl
    · rw [parts_variableDeclaration hu]
      simp only [fields, List.mapM_cons, List.mapM_nil, look_token, look_optionalPart hu,
        bind_assoc, pure_bind, layout_variableDeclaration hu]
  case ifStatement c t u =>
    by_cases hu : u = .nil
    · subst hu
      rw [parts]
      simp only [fields, List.mapM_cons, List.mapM_nil, look_part, look_noPart, bind_assoc,
        pure_bind]
      rfl
    · rw [parts_ifStatement hu]
      simp only [fields, List.mapM_cons, List.mapM_nil, look_part, look_optionalPart hu, bind_assoc,
        pure_bind, layout_ifStatement hu]
  case this => rfl
  case classDeclaration =>
    rw [parts]
    simp only [fields, List.mapM_cons, List.mapM_nil, look_token, look_members, extending_eq,
      bind_assoc, pure_bind, layout]
  all_goals
    rw [parts]
    simp only [fields, List.mapM_cons, List.mapM_nil, look_token, look_tokens, look_constant,
      look_part, look_members, bind_assoc, pure_bind, bind_pure, layout]

end

/-! ## What there is to see -/

/-- What is wrong with a value of which something is asked. -/
inductive Defect where
  | flaw (flaw : Flaw)
  /-- There is nothing to go through in a value of this type. -/
  | noElements (typeName : String)

/-- How a defect is told below some nodes, the outermost first: with the names of their
variants, unless there was nothing to go through. -/
def Defect.told (chain : List Value) : Defect → Fault
  | flaw f => .malformed (chain.map typeName) f
  | noElements t => .noElements t

/-- What there is to see of a value of which something is asked. -/
inductive Inspection where
  /-- Texts, and nothing more to look at. -/
  | shown (ts : List String)
  /-- Something wrong. -/
  | faulty (defect : Defect)
  /-- More values to look at. -/
  | through (items : List (Demand × Value))
  /-- A node, which has fields to look at. -/
  | node

/-- What there is to see of a value whose elements are looked at. -/
def through (d : Demand) (v : Value) : Inspection :=
  match v.elements? with
  | some items => .through (items.map (d, ·))
  | none => .faulty (.noElements v.typeName)

/-- What there is to see of a part. -/
def inspectPart : Value → Inspection
  | .list items | .tuple items => .through (items.map (.part, ·))
  | .token _ s _ _ => .shown [s]
  | .nil => .faulty (.flaw .missing)
  | .otherExpression t => .faulty (.flaw (.notNode t))
  | v => if v.isNode then .node else match plain? v with
    | some s => .shown [s]
    | none => .faulty (.flaw (.notPart v.typeName))

def inspect : Demand → Value → Inspection
  | .token, .token _ s _ _ => .shown [s]
  | .token, v => .faulty (.flaw (.notToken v.typeName))
  | .tokens, v => through .token v
  | .constant, .nil => .shown ["nil"]
  | .constant, v => match plain? v with
    | some s => .shown [s]
    | none => .faulty (.flaw (.unsupportedLiteral v))
  | .part, v => inspectPart v
  | .optionalPart, .nil => .shown []
  | .optionalPart, v => inspectPart v
  | .base, .nil => .shown []
  | .base, .variableName _ => .node
  | .base, v => .faulty (.flaw (.notSuperclass v.typeName))
  | .members m, v => through (.member m) v
  | .member m, v => if m.includes v then .node else .faulty (.flaw (m.flaw v.typeName))

/-- What becomes of a value of which there is something to see. -/
def Inspection.outcome (v : Value) : Inspection → Except Fault (List String)
  | .shown ts => .ok ts
  | .faulty defect => .error (defect.told [])
  | .through items => List.flatten <$> items.mapM fun x => look x.1 x.2
  | .node => parts v

section

variable {items : List Value}

theorem partsOfAll_eq_mapM (items : List Value) :
    partsOfAll items = List.flatten <$> items.mapM (look .part) := by
  induction items with
  | nil => rfl
  | cons v vs ih =>
    rw [partsOfAll, ih, List.mapM_cons, look]
    simp

theorem formsOfAll_eq_mapM (m : Members) (items : List Value) :
    formsOfAll m items = List.flatten <$> items.mapM (look (.member m)) := by
  induction items with
  | nil => rfl
  | cons v vs ih =>
    rw [formsOfAll, ih, List.mapM_cons, look]
    split <;> simp

theorem formsOfKeys_eq (m : Members) (entries : List (Value × Value)) :
    formsOfKeys m entries = formsOfAll m (entries.map (·.1)) := by
  induction entries with
  | nil => rfl
  | cons entry entries ih => rw [formsOfKeys, ih, List.map_cons, formsOfAll]

/-- Neither the characters of a text nor bytes are members, so that it does not matter
that only the first of them is looked at. -/
theorem forms_eq_mapM (h : v.elements? = some items) :
    forms m v = List.flatten <$> items.mapM (look (.member m)) := by
  rw [← formsOfAll_eq_mapM]
  cases v <;> simp only [elements?, reduceCtorEq, Option.some.injEq] at h <;> subst h
  case list => rw [forms]
  case tuple => rw [forms]
  case dictionary entries => rw [forms, formsOfKeys_eq]
  case text s =>
    rw [forms, elements?]
    · cases s.toList with
      | nil => rfl
      | cons c cs => cases m <;> rfl
    all_goals simp
  case bytes bs =>
    rw [forms, elements?]
    · cases bs with
      | nil => rfl
      | cons b bs => cases m <;> rfl
    all_goals simp

theorem lexemes_eq_mapM (h : v.elements? = some items) :
    lexemes v = List.flatten <$> items.mapM (look .token) := by
  rw [lexemes, h]
  clear h
  show items.mapM lexeme = _
  induction items with
  | nil => rfl
  | cons v vs ih =>
    rw [List.mapM_cons, List.mapM_cons, ih, look]
    simp

theorem mapM_look (d : Demand) (items : List Value) :
    (items.map (d, ·)).mapM (fun x => look x.1 x.2) = items.mapM (look d) := by
  induction items with
  | nil => rfl
  | cons v vs ih => rw [List.map_cons, List.mapM_cons, List.mapM_cons, ih]

theorem parts_eq (v : Value) : parts v = (inspectPart v).outcome v := by
  cases v with
  | list items | tuple items =>
    rw [parts, inspectPart, Inspection.outcome, mapM_look, partsOfAll_eq_mapM]
  | _ => rfl

theorem forms_eq (m : Members) (v : Value) : forms m v = (through (.member m) v).outcome v := by
  unfold through
  cases h : v.elements? with
  | none => cases v <;> first | rfl | simp [elements?] at h
  | some items => exact (forms_eq_mapM h).trans (congrArg _ (mapM_look _ _).symm)

theorem lexemes_eq_through (v : Value) : lexemes v = (through .token v).outcome v := by
  unfold through
  cases h : v.elements? with
  | none =>
    rw [lexemes, h]
    rfl
  | some items => exact (lexemes_eq_mapM h).trans (congrArg _ (mapM_look _ _).symm)

theorem inspect_optionalPart (h : v ≠ .nil) : inspect .optionalPart v = inspectPart v := by
  cases v <;> first | rfl | exact absurd rfl h

/-- **What there is to see decides what becomes of a value.** -/
theorem look_eq (d : Demand) (v : Value) : look d v = (inspect d v).outcome v := by
  cases d with
  | token | constant | base => cases v <;> rfl
  | tokens => exact lexemes_eq_through v
  | part => exact parts_eq v
  | optionalPart =>
    by_cases hv : v = .nil
    · subst hv
      rfl
    · rw [look_optionalPart hv, inspect_optionalPart hv, parts_eq]
  | members m => exact forms_eq m v
  | member m =>
    rw [look, inspect]
    split <;> rfl

/-- The form of a value is that of a member among any nodes. -/
theorem form_eq (v : Value) : v.form = String.join <$> look (.member .nodes) v := by
  rw [form, look]
  show (if v.isNode then _ else _) = String.join <$> if v.isNode then _ else _
  split
  · cases parts v <;> rfl
  · rfl

end

/-! ## Where there is more to look at -/

variable {items : List (Demand × Value)}

theorem isNode_of_includes (h : m.includes v) : v.isNode := by
  cases m with
  | nodes => exact h
  | methods => cases v <;> first | rfl | contradiction

theorem through_eq_through (h : through d v = .through items) :
    ∃ us, v.elements? = some us ∧ items = us.map (d, ·) := by
  unfold through at h
  cases helements : v.elements? with
  | none =>
    rw [helements] at h
    exact nomatch h
  | some us =>
    rw [helements] at h
    exact ⟨us, rfl, (Inspection.through.inj h).symm⟩

theorem through_ne_node : through d v ≠ .node := by
  unfold through
  split <;> simp

theorem inspectPart_eq_through (h : inspectPart v = .through items) :
    ∃ us, (v = .list us ∨ v = .tuple us) ∧ items = us.map (.part, ·) := by
  cases v with
  | list us => exact ⟨us, .inl rfl, (Inspection.through.inj h).symm⟩
  | tuple us => exact ⟨us, .inr rfl, (Inspection.through.inj h).symm⟩
  | _ => exact nomatch h

/-- Only nodes have fields to look at. -/
theorem isNode_of_inspect (h : inspect d v = .node) : v.isNode := by
  cases d with
  | token | constant | base => cases v <;> first | rfl | exact nomatch h
  | part | optionalPart => cases v <;> first | rfl | exact nomatch h
  | tokens => exact absurd h through_ne_node
  | members m => exact absurd h through_ne_node
  | member m =>
    rw [inspect] at h
    split at h
    next hm => exact isNode_of_includes hm
    next => exact nomatch h

end Form

end LoxForms
