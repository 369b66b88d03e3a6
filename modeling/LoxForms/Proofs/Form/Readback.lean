import LoxForms.Proofs.Building.Lines
import LoxForms.Proofs.Double.Printed
import LoxForms.Proofs.Form.Rendered
/-!
# Reading forms back

The glyphs of a statement tell the statement, up to the lines of its tokens
(`MadeStatement.run_glyphs`). What a group is follows from its head and from how
many words come after it: `=` before two words assigns to a variable, and before
three to a property. Without a head, a word is an operand: a literal, `this`, or
a variable, and never a variable that is spelled as one of the others
(`Terms.telling`).

Strings are left out, for a string can have any text.
-/

namespace LoxForms

open Form Glyph

/-- Numbers are finite, there are no strings, and no variable is spelled as
another operand. -/
def Terms.telling : Terms where
  lookedUp s := ∀ t ∈ ["nil", "true", "false", "this"], s ≠ t
  denoted v := ∃ negative rank, v = .float (.finite negative rank)

theorem Terms.telling_plain : telling.Plain := by
  rintro v ⟨negative, rank, rfl⟩
  rfl

namespace Form

/-! ## Readings -/

/-- The characters that glyphs begin with, up to the first group. -/
def letters : List Glyph → List Char
  | .char c :: gs => c :: letters gs
  | _ => []

def lettersText (gs : List Glyph) : String := .ofList (letters gs)

/-- The words in the first group among glyphs. -/
def listed : List Glyph → List (List Glyph)
  | [] => []
  | .char _ :: gs => listed gs
  | .group [] [] :: _ => []
  | .group head words :: _ => head :: words

/-- A token for a name. -/
def nameToken (s : String) : Value := .token .identifier s .nil 0

/-- A token for an operator, of the kind that is spelled like it. -/
def operatorToken (s : String) : Value :=
  .token ((TokenKind.all.find? fun k => k.spelling? = some s.toList).getD .identifier) s .nil 0

/-- Whether a word is for a number. -/
def isNumberWord (s : String) : Bool := s.toList.head?.any fun c => c.isDigit || c = '-'

/-- The operand that a word stands for. -/
def operand (s : String) : Value :=
  if s = "nil" then .literal .nil
  else if s = "true" then .literal (.bool true)
  else if s = "false" then .literal (.bool false)
  else if s = "this" then .this
  else if isNumberWord s then .literal (.float (Double.ofChars s.toList))
  else .variableName (nameToken s)

/-- All that a word can be read as. -/
structure Reading where
  glyphs : List Glyph
  expression : Value
  /-- The statements that it is made of. -/
  statements : List Value

namespace Reading

def name (r : Reading) : Value := nameToken (lettersText r.glyphs)

def statement (r : Reading) : Value := r.statements.headD .nil

end Reading

/-- The expression with a head and parts. -/
def expressionFrom (head : String) : List Reading → Value
  | r :: rs =>
    if head = "call" then .call r.expression (.list (rs.map Reading.expression))
    else match rs with
    | [] =>
      if head = "group" then .grouping r.expression
      else if head = "super" then .super r.name
      else .unary (operatorToken head) r.expression
    | [s] =>
      if head = "." then .get r.expression s.name
      else if head = "=" then .assign r.name s.expression
      else if head = "and" ∨ head = "or" then
        .logical r.expression (operatorToken head) s.expression
      else .binary r.expression (operatorToken head) s.expression
    | s :: t :: _ => .set r.expression s.name t.expression
  | [] => .nil

/-- The class with a name, and with parts after it. -/
def classFrom (name : String) : List Reading → Value
  | [] => .classDeclaration (nameToken name) .nil (.list [])
  | r :: rs =>
    if lettersText r.glyphs = "<" then
      .classDeclaration (nameToken name) (.variableName (rs.headD r).name)
        (.list (rs.tail.map Reading.statement))
    else .classDeclaration (nameToken name) .nil (.list ((r :: rs).map Reading.statement))

/-- The statement with a head and parts, unless it is a class. -/
def statementFrom (head : String) : List Reading → Value
  | [] => .returnStatement .nil
  | [r] =>
    if head = ";" then .expressionStatement r.expression
    else if head = "print" then .print r.expression
    else if head = "return" then .returnStatement r.expression
    else if head = "var" then .variableDeclaration r.name .nil
    else .block (.list r.statements)
  | [r, s] =>
    if head = "if" then .ifStatement r.expression s.statement .nil
    else if head = "while" then .whileStatement r.expression s.statement
    else .functionDeclaration r.name
      (.list ((listed r.glyphs).map fun w => nameToken (lettersText w))) (.list s.statements)
  | r :: s :: t :: _ =>
    if head = "var" then .variableDeclaration r.name t.expression
    else .ifStatement r.expression s.statement t.statement

/-- The statement that a group is, given the letters of its head. -/
def groupFrom (head : List Char) (rs : List Reading) : Value :=
  match head with
  | 'c' :: 'l' :: 'a' :: 's' :: 's' :: name => classFrom (.ofList name) rs
  | _ => statementFrom (.ofList head) rs

mutual

/-- The expression that glyphs stand for. -/
def readExpression : List Glyph → Value
  | .group head words :: _ => expressionFrom (lettersText head) (readings words)
  | gs => operand (lettersText gs)

/-- The statement that a glyph stands for. -/
def readStatement : Glyph → Value
  | .group head words => groupFrom (letters head) (readings words)
  | .char _ => .nil

/-- The statements that glyphs stand for, one each. -/
def run : List Glyph → List Value
  | [] => []
  | g :: gs => readStatement g :: run gs

def readings : List (List Glyph) → List Reading
  | [] => []
  | w :: ws => ⟨w, readExpression w, run w⟩ :: readings ws

end

theorem readings_eq (ws : List (List Glyph)) :
    readings ws = ws.map fun w => ⟨w, readExpression w, run w⟩ := by
  induction ws with
  | nil => rfl
  | cons w ws ih => rw [readings, ih, List.map_cons]

theorem run_append (gs gs' : List Glyph) : run (gs ++ gs') = run gs ++ run gs' := by
  induction gs with
  | nil => rfl
  | cons g gs ih => rw [List.cons_append, run, run, ih, List.cons_append]

variable {v : Value} {r r' : Reading} {k : TokenKind}

theorem letters_append (s : String) (gs : List Glyph) :
    letters (chars s ++ gs) = s.toList ++ letters gs := by
  have happend : ∀ cs : List Char, letters (cs.map char ++ gs) = cs ++ letters gs := by
    intro cs
    induction cs with
    | nil => rfl
    | cons c cs ih => rw [List.map_cons, List.cons_append, letters, ih, List.cons_append]
  exact happend s.toList

theorem letters_chars (s : String) : letters (chars s) = s.toList := by
  have happend := letters_append s []
  rwa [List.append_nil, show letters [] = [] from rfl, List.append_nil] at happend

theorem lettersText_chars (s : String) : lettersText (chars s) = s := by
  rw [lettersText, letters_chars, String.ofList_toList]

theorem readExpression_group (head : String) (ws : List (List Glyph)) :
    readExpression [group (chars head) ws] = expressionFrom head (readings ws) := by
  rw [readExpression, lettersText_chars]

theorem run_group (head : String) (ws : List (List Glyph)) :
    run [group (chars head) ws] = [groupFrom head.toList (readings ws)] := by
  rw [run, readStatement, letters_chars, run]

/-! ## Names and operators -/

theorem nameToken_eq (h : v.IsWordToken) : nameToken (lettersText (glyphs v)) = v.unplaced := by
  obtain ⟨s, line, -, rfl⟩ := h
  rw [glyphs, lettersText_chars, Value.unplaced, nameToken]

/-- How an operator is spelled. -/
def spelled (k : TokenKind) : String := .ofList (k.spelling?.getD [])

theorem expressionFrom_unary (h : k ∈ TokenKind.unaryOperators) :
    expressionFrom (spelled k) [r] = .unary (.token k (spelled k) .nil 0) r.expression := by
  simp only [TokenKind.unaryOperators, List.mem_cons, List.not_mem_nil, or_false] at h
  rcases h with rfl | rfl <;> rfl

theorem expressionFrom_logical (h : k ∈ TokenKind.logicalOperators) :
    expressionFrom (spelled k) [r, r'] =
      .logical r.expression (.token k (spelled k) .nil 0) r'.expression := by
  simp only [TokenKind.logicalOperators, List.mem_cons, List.not_mem_nil, or_false] at h
  rcases h with rfl | rfl <;> rfl

theorem expressionFrom_binary (h : k ∈ TokenKind.binaryOperators) :
    expressionFrom (spelled k) [r, r'] =
      .binary r.expression (.token k (spelled k) .nil 0) r'.expression := by
  simp only [TokenKind.binaryOperators, List.mem_cons, List.not_mem_nil, or_false] at h
  rcases h with rfl | rfl | rfl | rfl | rfl | rfl | rfl | rfl | rfl | rfl <;> rfl

/-! ## Operands -/

theorem isNumberWord_of_isWord {s : String} (h : Lexeme.IsWord s.toList) :
    isNumberWord s = false := by
  obtain ⟨c, rest, hs, hc, -⟩ := h
  rw [isNumberWord, hs, List.head?_cons, Option.any_some, Bool.or_eq_false_iff]
  constructor
  · by_contra hdigit
    rw [Lexeme.isWordStart_eq_false (Bool.eq_true_of_not_eq_false hdigit)] at hc
    exact absurd hc (by simp)
  · rw [decide_eq_false_iff_not]
    rintro rfl
    exact absurd hc (by decide)

theorem operand_variable {s : String} (h : Lexeme.IsWord s.toList) (hs : Terms.telling.lookedUp s) :
    operand s = .variableName (nameToken s) := by
  have hne : ∀ t ∈ ["nil", "true", "false", "this"], s ≠ t := hs
  simp only [List.forall_mem_cons] at hne
  rw [operand, if_neg hne.1, if_neg hne.2.1, if_neg hne.2.2.1, if_neg hne.2.2.2.1,
    isNumberWord_of_isWord h, if_neg (by simp)]

theorem operand_number (negative : Bool) (rank : Fin finiteMagnitudes) :
    operand (Double.finite negative rank).text = .literal (.float (.finite negative rank)) := by
  obtain ⟨-, c, rest, htext, hc⟩ := Double.text_numeral negative rank
  have hword : ∀ t : String, (t.toList.head?.any fun c => c.isDigit || c = '-') = false →
      (Double.finite negative rank).text ≠ t := by
    rintro t ht rfl
    rw [htext, List.head?_cons, Option.any_some] at ht
    rcases hc with hc | rfl
    · simp [hc] at ht
    · exact absurd ht (by decide)
  have hnumber : isNumberWord (Double.finite negative rank).text := by
    rw [isNumberWord, htext, List.head?_cons, Option.any_some]
    rcases hc with hc | rfl
    · rw [hc]
      rfl
    · rfl
  rw [operand, if_neg (hword _ rfl), if_neg (hword _ rfl), if_neg (hword _ rfl),
    if_neg (hword _ rfl), if_pos hnumber, Double.ofChars_text]

theorem readExpression_chars (s : String) : readExpression (chars s) = operand s := by
  have hchars : ∀ cs : List Char,
      readExpression (cs.map char) = operand (lettersText (cs.map char)) := by
    intro cs
    cases cs <;> rfl
  rw [chars, hchars, ← chars, lettersText_chars]

end Form

namespace Value

variable {v : Value} {vs : List Value}

theorem readings_glyphs {r : Value → Value} (h : ∀ v ∈ vs, readExpression (glyphs v) = r v) :
    (readings (vs.map glyphs)).map Reading.expression = vs.map r := by
  rw [readings_eq, List.map_map, List.map_map]
  exact List.map_congr_left h

/-- **An expression can be read back.** -/
theorem MadeExpression.readExpression_glyphs (h : MadeExpression .telling v) :
    readExpression (glyphs v) = v.unplaced := by
  induction h with
  | nil => rfl
  | bool b => cases b <;> rfl
  | literal hv =>
    obtain ⟨negative, rank, rfl⟩ := hv
    rw [glyphs, readExpression_chars]
    exact operand_number negative rank
  | this => rfl
  | variableName hword hs =>
    rw [glyphs, glyphs, readExpression_chars, operand_variable hword hs]
    rfl
  | super hname =>
    rw [glyphs, readExpression_group, readings]
    show Value.super (nameToken _) = _
    rw [nameToken_eq hname, unplaced]
  | grouping _ ih =>
    rw [glyphs, readExpression_group, readings, ih]
    rfl
  | unary ho _ ih =>
    obtain ⟨k, hk, line, rfl⟩ := ho
    rw [glyphs, glyphs, readExpression_group, readings, ih]
    exact expressionFrom_unary hk
  | binary ho _ _ ihl ihr =>
    obtain ⟨k, hk, line, rfl⟩ := ho
    rw [glyphs, glyphs, readExpression_group, readings, readings, ihl, ihr]
    exact expressionFrom_binary hk
  | logical ho _ _ ihl ihr =>
    obtain ⟨k, hk, line, rfl⟩ := ho
    rw [glyphs, glyphs, readExpression_group, readings, readings, ihl, ihr]
    exact expressionFrom_logical hk
  | call _ _ ih ihargs =>
    rw [glyphs, words_list, readExpression_group, readings, ih, unplaced, unplaced_list,
      ← readings_glyphs ihargs]
    rfl
  | get _ hname ih =>
    rw [glyphs, readExpression_group, readings, readings, ih, unplaced, ← nameToken_eq hname]
    rfl
  | set _ hname _ ih ihv =>
    rw [glyphs, readExpression_group, readings, readings, readings, ih, ihv, unplaced,
      ← nameToken_eq hname]
    rfl
  | assign hname _ ih =>
    rw [glyphs, readExpression_group, readings, readings, ih, unplaced, ← nameToken_eq hname]
    rfl

/-! ## Statements -/

theorem run_words (h : ∀ v ∈ vs, run (glyphs v) = [v.unplaced]) :
    run (vs.map glyphs).flatten = vs.map unplaced := by
  induction vs with
  | nil => rfl
  | cons v vs ih =>
    rw [List.forall_mem_cons] at h
    rw [List.map_cons, List.flatten_cons, run_append, h.1, ih h.2]
    rfl

theorem statements_glyphs (h : ∀ v ∈ vs, run (glyphs v) = [v.unplaced]) :
    (readings (vs.map glyphs)).map Reading.statement = vs.map unplaced := by
  rw [readings_eq, List.map_map, List.map_map]
  refine List.map_congr_left fun v hv => ?_
  show (run (glyphs v)).headD .nil = _
  rw [h v hv, List.headD_cons]

theorem lettersText_ofWords (s : String) (ws : List (List Glyph)) :
    lettersText (chars s ++ [ofWords ws]) = s := by
  have hletters : letters [ofWords ws] = [] := by cases ws <;> rfl
  rw [lettersText, letters_append, hletters, List.append_nil, String.ofList_toList]

theorem listed_ofWords {ws : List (List Glyph)} (h : ∀ w ∈ ws, w ≠ []) (s : String) :
    listed (chars s ++ [ofWords ws]) = ws := by
  have happend : ∀ cs : List Char, listed (cs.map char ++ [ofWords ws]) = listed [ofWords ws] := by
    intro cs
    induction cs with
    | nil => rfl
    | cons c cs ih => rw [List.map_cons, List.cons_append, listed, ih]
  rw [chars, happend]
  cases ws with
  | nil => rfl
  | cons w ws =>
    cases w with
    | nil => exact absurd rfl (h _ List.mem_cons_self)
    | cons => rfl

theorem IsWordToken.glyphs_ne (h : IsWordToken v) : glyphs v ≠ [] := by
  obtain ⟨s, line, ⟨c, rest, hs, -⟩, rfl⟩ := h
  rw [glyphs, chars, hs]
  simp

/-- **A function can be read back**, given that its body can. -/
theorem run_function {name : Value} {params body : List Value} (hname : IsWordToken name)
    (hparams : ∀ p ∈ params, IsWordToken p) (h : ∀ s ∈ body, run (glyphs s) = [s.unplaced]) :
    run (glyphs (.functionDeclaration name (.list params) (.list body))) =
      [(Value.functionDeclaration name (.list params) (.list body)).unplaced] := by
  have hwords : ∀ w ∈ params.map glyphs, w ≠ [] :=
    List.forall_mem_map.mpr fun p hp => (hparams p hp).glyphs_ne
  have hnames : (params.map glyphs).map (fun w => nameToken (lettersText w)) =
      params.map unplaced := by
    rw [List.map_map]
    exact List.map_congr_left fun p hp => nameToken_eq (hparams p hp)
  obtain ⟨s, line, -, rfl⟩ := hname
  have hgroup : ∀ r r', groupFrom "fun".toList [r, r'] = .functionDeclaration r.name
      (.list ((listed r.glyphs).map fun w => nameToken (lettersText w))) (.list r'.statements) :=
    fun _ _ => rfl
  rw [glyphs, glyphs, words_list, words_list, run_group, readings, readings, readings, hgroup,
    Reading.name]
  dsimp only
  rw [lettersText_ofWords, listed_ofWords hwords, hnames, run_words h, unplaced, unplaced_list,
    unplaced_list]
  rfl

/-- **A class can be read back**, given that its methods can. -/
theorem run_class {name base : Value} {methods : List Value} (hname : IsWordToken name)
    (hbase : IsBase base) (hmethods : ∀ m ∈ methods, IsFunction m)
    (h : ∀ m ∈ methods, run (glyphs m) = [m.unplaced]) :
    run (glyphs (.classDeclaration name base (.list methods))) =
      [(Value.classDeclaration name base (.list methods)).unplaced] := by
  obtain ⟨s, line, -, rfl⟩ := hname
  have hgroup : ∀ cs rs, groupFrom ("class".toList ++ cs) rs = classFrom (.ofList cs) rs :=
    fun _ _ => rfl
  rw [glyphs, glyphs, words_list, run, readStatement, letters_append, letters_chars, hgroup,
    String.ofList_toList, run, unplaced, unplaced_list, ← statements_glyphs h]
  rcases hbase with rfl | ⟨b, rfl, hb⟩
  · cases methods with
    | nil => rfl
    | cons m ms =>
      obtain ⟨_, _, _, rfl⟩ := hmethods m List.mem_cons_self
      rfl
  · rw [glyphs, ifAny_of_ne (by simp), unplaced, unplaced, ← nameToken_eq hb]
    rfl

/-- **A statement can be read back.** -/
theorem MadeStatement.run_glyphs (h : MadeStatement .telling v) :
    run (glyphs v) = [v.unplaced] := by
  induction h with
  | expressionStatement he | print he =>
    rw [glyphs, run_group, readings, he.readExpression_glyphs]
    rfl
  | returnNothing => rfl
  | returnStatement he =>
    rw [glyphs, ifAny_of_ne he.ne_nil, run_group, readings, he.readExpression_glyphs]
    rfl
  | uninitialized hname =>
    rw [glyphs, run_group, unplaced, ← nameToken_eq hname]
    rfl
  | variableDeclaration hname he =>
    rw [glyphs, ifAny_of_ne he.ne_nil, run_group, readings, readings, readings,
      he.readExpression_glyphs, unplaced, ← nameToken_eq hname]
    rfl
  | block hs ih =>
    rw [glyphs, words_list, run_group, readings, run_words ih, unplaced, unplaced_list]
    rfl
  | ifStatement hc _ ih =>
    rw [glyphs, run_group, ifAny, readings, readings, hc.readExpression_glyphs, ih]
    rfl
  | ifElseStatement hc _ he iht ihe =>
    rw [glyphs, ifHead_of_ne he.ne_nil, ifAny_of_ne he.ne_nil, run_group, readings, readings,
      readings, hc.readExpression_glyphs, iht, ihe]
    rfl
  | whileStatement hc _ ih =>
    rw [glyphs, run_group, readings, readings, hc.readExpression_glyphs, ih]
    rfl
  | functionDeclaration hname hparams _ ih => exact run_function hname hparams ih
  | classDeclaration hname hbase hfunctions _ ih => exact run_class hname hbase hfunctions ih

end Value

end LoxForms
