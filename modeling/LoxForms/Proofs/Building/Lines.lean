import LoxForms.Proofs.Building.Rows
/-!
# Lines do not matter

No rule looks at the line of a token. So to change the lines of all tokens and then
to build comes to the same as to build first (`Building.ofRule_relined`). This is used
where a text is moved down, and where all tokens are put on one line: what is built
of values that are equal up to lines is equal up to lines (`Shape.values_congr`).
-/

namespace LoxForms

namespace Value

mutual

/-- The same value, with its tokens on other lines. -/
def relined (f : Int → Int) : Value → Value
  | .token k lexeme denoted line => .token k lexeme denoted (f line)
  | .list items => .list (relinedAll f items)
  | .binary l o r => .binary (relined f l) (relined f o) (relined f r)
  | .grouping e => .grouping (relined f e)
  | .unary o r => .unary (relined f o) (relined f r)
  | .variableName n => .variableName (relined f n)
  | .assign n v => .assign (relined f n) (relined f v)
  | .logical l o r => .logical (relined f l) (relined f o) (relined f r)
  | .call c a => .call (relined f c) (relined f a)
  | .get o n => .get (relined f o) (relined f n)
  | .set o n v => .set (relined f o) (relined f n) (relined f v)
  | .super m => .super (relined f m)
  | .expressionStatement e => .expressionStatement (relined f e)
  | .print e => .print (relined f e)
  | .returnStatement v => .returnStatement (relined f v)
  | .variableDeclaration n i => .variableDeclaration (relined f n) (relined f i)
  | .block s => .block (relined f s)
  | .ifStatement c t e => .ifStatement (relined f c) (relined f t) (relined f e)
  | .whileStatement c b => .whileStatement (relined f c) (relined f b)
  | .functionDeclaration n p b => .functionDeclaration (relined f n) (relined f p) (relined f b)
  | .classDeclaration n s m => .classDeclaration (relined f n) (relined f s) (relined f m)
  | .tree n cs => .tree n (relinedAll f cs)
  | v => v

def relinedAll (f : Int → Int) : List Value → List Value
  | [] => []
  | v :: vs => relined f v :: relinedAll f vs

end

attribute [local simp] relined relinedAll

variable {f : Int → Int} {v : Value} {vs : List Value}

theorem relinedAll_eq (vs : List Value) : relinedAll f vs = vs.map (relined f) := by
  induction vs with
  | nil => rfl
  | cons v vs ih => rw [relinedAll, ih, List.map_cons]

theorem relined_list (items : List Value) :
    relined f (.list items) = .list (items.map (relined f)) := by
  rw [relined, relinedAll_eq]

theorem isExpression_relined (v : Value) : (relined f v).isExpression = v.isExpression := by
  cases v <;> rfl

theorem isStatement_relined (v : Value) : (relined f v).isStatement = v.isStatement := by
  cases v <;> rfl

theorem isToken_relined (v : Value) : (relined f v).isToken = v.isToken := by
  cases v <;> rfl

theorem relined_eq_nil : relined f v = .nil ↔ v = .nil := by
  cases v <;> simp

end Value

namespace Building

open Value

variable {f : Int → Int}

/-! ## Places -/

/-- To take a value without regard to lines. -/
def Lineless (place : Value → Except Refusal Value) : Prop :=
  ∀ {f : Int → Int} (v : Value), place (relined f v) = relined f <$> place v

theorem lineless_expression : Lineless expression := by
  intro f v
  unfold expression require
  rw [isExpression_relined]
  split <;> rfl

theorem lineless_statement : Lineless statement := by
  intro f v
  unfold statement require
  rw [isStatement_relined]
  split <;> rfl

theorem lineless_token : Lineless token := by
  intro f v
  unfold token require
  rw [isToken_relined]
  split <;> rfl

theorem lineless_optional {place : Value → Except Refusal Value} (h : Lineless place) :
    Lineless (optional place) := by
  intro f v
  by_cases hv : v = .nil
  · subst hv
    rfl
  · have hoptional : ∀ {u}, u ≠ .nil → optional place u = place u := by
      intro u hu
      unfold optional
      split
      · exact absurd rfl hu
      · rfl
    rw [hoptional hv, hoptional (mt relined_eq_nil.mp hv), h v]

theorem lineless_listOrNil : Lineless listOrNil := by
  intro f v
  cases v <;> rfl

theorem lineless_base : Lineless base := by
  intro f v
  cases v <;> rfl

theorem lineless_method : Lineless method := by
  intro f v
  cases v <;> rfl

theorem lineless_blockStatements : Lineless blockStatements := by
  intro f v
  cases v <;> rfl

theorem tokenLiteral_relined (v : Value) : tokenLiteral (relined f v) = tokenLiteral v := by
  cases v <;> rfl

theorem lineless_assignment (value : Value) (v : Value) :
    assignment (relined f value) (relined f v) = relined f <$> assignment value v := by
  cases v <;> rfl

theorem mapM_relined {place : Value → Except Refusal Value} (h : Lineless place)
    (vs : List Value) :
    (vs.map (relined f)).mapM place = List.map (relined f) <$> vs.mapM place := by
  induction vs with
  | nil => rfl
  | cons v vs ih =>
    rw [List.map_cons, List.mapM_cons, List.mapM_cons, h v, ih]
    simp only [map_bind, bind_map_left, map_pure, List.map_cons]

theorem limited_relined {violation : Violation} {place : Value → Except Refusal Value}
    (h : Lineless place) (vs : List Value) :
    limited violation place (vs.map (relined f)) = relined f <$> limited violation place vs := by
  unfold limited
  rw [List.length_map, mapM_relined h]
  split
  · rfl
  · simp only [map_bind, bind_map_left, map_pure, relined_list]

theorem foldRest_relined {join : Value → Value → Value → Value}
    (hjoin : ∀ l o r, join (relined f l) (relined f o) (relined f r) = relined f (join l o r))
    (left : Value) (vs : List Value) :
    foldRest join (relined f left) (vs.map (relined f)) = relined f <$> foldRest join left vs := by
  induction left, vs using foldRest.induct join with
  | case1 left => rfl
  | case2 left operator =>
    simp only [List.map_cons, List.map_nil, foldRest, lineless_token operator, map_bind,
      bind_map_left]
    rfl
  | case3 left operator right rest ih =>
    simp only [List.map_cons, foldRest, lineless_token operator, lineless_expression right, map_bind,
      bind_map_left, hjoin, ih]

theorem fold_relined {join : Value → Value → Value → Value}
    (hjoin : ∀ l o r, join (relined f l) (relined f o) (relined f r) = relined f (join l o r))
    (vs : List Value) : fold join (vs.map (relined f)) = relined f <$> fold join vs := by
  cases vs with
  | nil => rfl
  | cons left rest =>
    simp only [List.map_cons, fold, lineless_expression left, map_bind, bind_map_left,
      foldRest_relined hjoin]

/-! A loop is made part by part. -/

theorem forLoop_of_initializer {initializer condition increment body : Value}
    (h : initializer ≠ .nil) : forLoop initializer condition increment body =
      .block (.list [initializer, forLoop .nil condition increment body]) := by
  cases initializer <;> first | rfl | contradiction

theorem forLoop_of_increment {initializer condition increment body : Value}
    (h : increment ≠ .nil) : forLoop initializer condition increment body =
      forLoop initializer condition .nil (.block (.list [body, .expressionStatement increment])) := by
  cases increment <;> first | rfl | contradiction

theorem forLoop_of_condition {condition body : Value} (h : condition ≠ .nil) :
    forLoop .nil condition .nil body = .whileStatement condition body := by
  cases condition <;> first | rfl | contradiction

theorem forLoop_relined (initializer condition increment body : Value) :
    forLoop (relined f initializer) (relined f condition) (relined f increment) (relined f body) =
      relined f (forLoop initializer condition increment body) := by
  have hwhile : ∀ body, forLoop .nil (relined f condition) .nil (relined f body) =
      relined f (forLoop .nil condition .nil body) := by
    intro body
    by_cases h : condition = .nil
    · subst h
      rfl
    · rw [forLoop_of_condition h, forLoop_of_condition (mt relined_eq_nil.mp h), relined]
  have hloop : forLoop .nil (relined f condition) (relined f increment) (relined f body) =
      relined f (forLoop .nil condition increment body) := by
    by_cases h : increment = .nil
    · subst h
      exact hwhile body
    · rw [forLoop_of_increment h, forLoop_of_increment (mt relined_eq_nil.mp h), ← hwhile]
      rfl
  by_cases h : initializer = .nil
  · subst h
    exact hloop
  · rw [forLoop_of_initializer h, forLoop_of_initializer (mt relined_eq_nil.mp h), hloop]
    rfl

/-- **No rule looks at a line.** -/
theorem ofRule_relined (r : Rule) (vs : List Value) :
    ofRule r (vs.map (relined f)) = relined f <$> ofRule r vs := by
  have hlogical := @fold_relined f .logical fun _ _ _ => rfl
  have hbinary := @fold_relined f .binary fun _ _ _ => rfl
  -- the rules are told apart by how many children they take
  cases r
  case trueLiteral | falseLiteral | nilLiteral | thisWord => rfl
  case logicOr | logicAnd => exact hlogical vs
  case equality | comparison | term | factor => exact hbinary vs
  case parameters => exact limited_relined lineless_token vs
  case arguments => exact limited_relined lineless_expression vs
  case start | block =>
    simp only [ofRule, mapM_relined lineless_statement, map_bind, bind_map_left, map_pure, relined,
      relinedAll_eq]
  case superclass =>
    simp only [ofRule, List.getLast?_map]
    cases vs.getLast? with
    | none => rfl
    | some name =>
      simp only [Option.map_some, lineless_token name, map_bind, bind_map_left, map_pure, relined]
  case classDecl =>
    rcases vs with _ | ⟨name, _ | ⟨base, methods⟩⟩
    · rfl
    · rfl
    · simp only [List.map_cons, ofRule, lineless_token name, lineless_optional lineless_base base,
        mapM_relined lineless_method, map_bind, bind_map_left, map_pure, relined, relinedAll_eq]
  case forInitializer =>
    rcases vs with _ | ⟨a, _ | ⟨b, vs⟩⟩
    · rfl
    · exact lineless_statement a
    · rfl
  case exprStmt | printStmt | returnStmt | number | string | variableName | grouping | superExpr =>
    rcases vs with _ | ⟨a, _ | ⟨b, vs⟩⟩
    · rfl
    · simp only [List.map_cons, List.map_nil, ofRule, lineless_expression a, lineless_token a,
        lineless_optional lineless_expression a, tokenLiteral_relined, map_bind, bind_map_left,
        map_pure, relined]
    · rfl
  case varDecl | whileStmt | assign | unary | call | get =>
    rcases vs with _ | ⟨a, _ | ⟨b, _ | ⟨c, vs⟩⟩⟩
    · rfl
    · rfl
    · simp only [List.map_cons, List.map_nil, ofRule, lineless_expression _, lineless_token _,
        lineless_optional lineless_expression _, lineless_statement _, lineless_listOrNil _,
        lineless_assignment, map_bind, bind_map_left, map_pure, relined]
    · rfl
  case function | ifStmt =>
    rcases vs with _ | ⟨a, _ | ⟨b, _ | ⟨c, _ | ⟨d, vs⟩⟩⟩⟩
    · rfl
    · rfl
    · rfl
    · simp only [List.map_cons, List.map_nil, ofRule, lineless_expression _, lineless_token _,
        lineless_statement _, lineless_optional lineless_statement _, lineless_listOrNil _,
        lineless_blockStatements _, map_bind, bind_map_left, map_pure, relined]
    · rfl
  case forStmt =>
    rcases vs with _ | ⟨a, _ | ⟨b, _ | ⟨c, _ | ⟨d, _ | ⟨e, vs⟩⟩⟩⟩⟩
    · rfl
    · rfl
    · rfl
    · rfl
    · simp only [List.map_cons, List.map_nil, ofRule, lineless_statement _,
        lineless_optional lineless_expression _, lineless_optional lineless_statement _,
        forLoop_relined, map_bind, bind_map_left, map_pure]
    · rfl

theorem ofNode_relined (l : Label) (vs : List Value) :
    ofNode l (vs.map (relined f)) = relined f <$> ofNode l vs := by
  cases l with
  | rule r =>
    rw [ofNode, ofNode, ofRule_relined]
    cases ofRule r vs <;> rfl
  | other name =>
    rw [ofNode, ofNode, ← relinedAll_eq]
    rfl

end Building

namespace Shape

open Building Value

variable {f : Int → Int}

theorem values_relined (shape : Shape) (vs : List Value) :
    shape.values (vs.map (relined f)) = List.map (relined f) <$> shape.values vs := by
  have hnode (l : Label) : (node l).values (vs.map (relined f)) =
      List.map (relined f) <$> (node l).values vs := by
    simp only [values, ofNode_relined, map_bind, bind_map_left, map_pure, List.map_cons,
      List.map_nil]
  cases shape with
  | node l => exact hnode l
  | splice => rfl
  | nodeUnlessSingle l =>
    by_cases hvs : vs.length = 1
    · obtain ⟨v, rfl⟩ := List.length_eq_one_iff.mp hvs
      rfl
    · rw [values_nodeUnlessSingle hvs, ← hnode, values_nodeUnlessSingle]
      rwa [List.length_map]

end Shape

/-! ## All tokens on one line -/

namespace Value

mutual

/-- The same value, with all tokens on line 0. -/
def unplaced : Value → Value
  | .token k lexeme denoted _ => .token k lexeme denoted 0
  | .list items => .list (unplacedAll items)
  | .binary l o r => .binary (unplaced l) (unplaced o) (unplaced r)
  | .grouping e => .grouping (unplaced e)
  | .unary o r => .unary (unplaced o) (unplaced r)
  | .variableName n => .variableName (unplaced n)
  | .assign n v => .assign (unplaced n) (unplaced v)
  | .logical l o r => .logical (unplaced l) (unplaced o) (unplaced r)
  | .call c a => .call (unplaced c) (unplaced a)
  | .get o n => .get (unplaced o) (unplaced n)
  | .set o n v => .set (unplaced o) (unplaced n) (unplaced v)
  | .super m => .super (unplaced m)
  | .expressionStatement e => .expressionStatement (unplaced e)
  | .print e => .print (unplaced e)
  | .returnStatement v => .returnStatement (unplaced v)
  | .variableDeclaration n i => .variableDeclaration (unplaced n) (unplaced i)
  | .block s => .block (unplaced s)
  | .ifStatement c t e => .ifStatement (unplaced c) (unplaced t) (unplaced e)
  | .whileStatement c b => .whileStatement (unplaced c) (unplaced b)
  | .functionDeclaration n p b => .functionDeclaration (unplaced n) (unplaced p) (unplaced b)
  | .classDeclaration n s m => .classDeclaration (unplaced n) (unplaced s) (unplaced m)
  | .tree n cs => .tree n (unplacedAll cs)
  | v => v

def unplacedAll : List Value → List Value
  | [] => []
  | v :: vs => unplaced v :: unplacedAll vs

end

theorem unplacedAll_eq (vs : List Value) : unplacedAll vs = vs.map unplaced := by
  induction vs with
  | nil => rfl
  | cons v vs ih => rw [unplacedAll, ih, List.map_cons]

theorem unplaced_list (items : List Value) :
    unplaced (.list items) = .list (items.map unplaced) := by
  rw [unplaced, unplacedAll_eq]

mutual

/-- To put all tokens on one line is to change their lines. -/
theorem unplaced_eq_relined : (v : Value) → unplaced v = relined (fun _ => 0) v
  | .list items => by rw [unplaced, relined, unplacedAll_eq_relinedAll items]
  | .tree _ children => by rw [unplaced, relined, unplacedAll_eq_relinedAll children]
  | .binary l o r | .logical l o r | .set l o r | .ifStatement l o r
  | .functionDeclaration l o r | .classDeclaration l o r => by
    rw [unplaced, relined, unplaced_eq_relined l, unplaced_eq_relined o, unplaced_eq_relined r]
  | .unary a b | .assign a b | .call a b | .get a b | .variableDeclaration a b
  | .whileStatement a b => by
    rw [unplaced, relined, unplaced_eq_relined a, unplaced_eq_relined b]
  | .grouping a | .variableName a | .super a | .expressionStatement a | .print a
  | .returnStatement a | .block a => by rw [unplaced, relined, unplaced_eq_relined a]
  | .nil | .bool _ | .int _ | .float _ | .text _ | .tuple _ | .dictionary _ | .bytes _ | .kind _
  | .object | .token .. | .literal _ | .this | .otherExpression _ => rfl

theorem unplacedAll_eq_relinedAll : (vs : List Value) → unplacedAll vs = relinedAll (fun _ => 0) vs
  | [] => rfl
  | v :: vs => by
    rw [unplacedAll, relinedAll, unplaced_eq_relined v, unplacedAll_eq_relinedAll vs]

end

theorem unplaced_eq : unplaced = relined fun _ => 0 := funext unplaced_eq_relined

theorem unplaced_eq_nil {v : Value} : unplaced v = .nil ↔ v = .nil := by
  rw [unplaced_eq]
  exact relined_eq_nil

end Value

namespace Shape

open Building Value

/-- **What is made of children that are equal up to lines is equal up to
lines.** -/
theorem values_congr {shape : Shape} {us vs ws : List Value}
    (h : us.map unplaced = vs.map unplaced) (hv : shape.values vs = .ok ws) :
    ∃ ws', shape.values us = .ok ws' ∧ ws'.map unplaced = ws.map unplaced := by
  rw [unplaced_eq] at h ⊢
  have hsame := values_relined (f := fun _ => 0) shape us
  rw [h, values_relined, hv] at hsame
  cases hu : shape.values us with
  | error e =>
    rw [hu] at hsame
    exact nomatch hsame
  | ok ws' =>
    rw [hu] at hsame
    exact ⟨ws', rfl, (Except.ok.inj hsame).symm⟩

end Shape

end LoxForms
