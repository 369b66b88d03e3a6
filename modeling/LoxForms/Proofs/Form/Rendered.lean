import LoxForms.Proofs.Building.Made
import LoxForms.Proofs.Building.Places
import LoxForms.Proofs.Form.Glyphs
/-!
# The form of what is made

Every expression and every statement that a text can stand for has a form, which
is a single part (`MadeExpression.parts_eq`, `MadeStatement.parts_eq`). It is
written with the glyphs of the value: a word for a name or a literal, and for
everything else a group with a word for each part.
-/

namespace LoxForms

/-- To know of numbers and strings that their values have texts. -/
def Terms.Plain (T : Terms) : Prop := ∀ v, T.denoted v → (Form.plain? v).isSome

namespace Form

open Glyph Value

/-- The glyphs of a word. -/
def chars (s : String) : List Glyph := s.toList.map char

/-- What there is of something that can be missing. -/
def ifAny {α : Type} (v : Value) (words : List α) : List α :=
  match v with
  | .nil => []
  | _ => words

/-- What a literal is written as. -/
def literalText (v : Value) : String :=
  match v with
  | .nil => "nil"
  | v => (plain? v).getD ""

/-- The head of an `if`, given the other branch. -/
def ifHead (elseBranch : Value) : String :=
  match elseBranch with
  | .nil => "if"
  | _ => "if-else"

/-- Words in parentheses, a blank between each two of them. -/
def ofWords : List (List Glyph) → Glyph
  | [] => group [] []
  | w :: ws => group w ws

mutual

/-- The glyphs of a value that is a part of a form. -/
def glyphs : Value → List Glyph
  | .token _ lexeme _ _ => chars lexeme
  | .binary left operator right | .logical left operator right =>
    [group (glyphs operator) [glyphs left, glyphs right]]
  | .grouping e => [group (chars "group") [glyphs e]]
  | .literal v => chars (literalText v)
  | .unary operator right => [group (glyphs operator) [glyphs right]]
  | .variableName name => glyphs name
  | .assign name value => [group (chars "=") [glyphs name, glyphs value]]
  | .call callee arguments => [group (chars "call") (glyphs callee :: words arguments)]
  | .get owner name => [group (chars ".") [glyphs owner, glyphs name]]
  | .set owner name value => [group (chars "=") [glyphs owner, glyphs name, glyphs value]]
  | .super method => [group (chars "super") [glyphs method]]
  | .this => chars "this"
  | .expressionStatement e => [group (chars ";") [glyphs e]]
  | .print e => [group (chars "print") [glyphs e]]
  | .returnStatement v => [group (chars "return") (ifAny v [glyphs v])]
  | .variableDeclaration name v =>
    [group (chars "var") (glyphs name :: ifAny v [chars "=", glyphs v])]
  | .block statements => [group (chars "block") [(words statements).flatten]]
  | .ifStatement condition thenBranch v =>
    [group (chars (ifHead v)) (glyphs condition :: glyphs thenBranch :: ifAny v [glyphs v])]
  | .whileStatement condition body => [group (chars "while") [glyphs condition, glyphs body]]
  | .functionDeclaration name params body =>
    [group (chars "fun") [glyphs name ++ [ofWords (words params)], (words body).flatten]]
  | .classDeclaration name base methods =>
    [group (chars "class" ++ glyphs name) (ifAny base [chars "<", glyphs base] ++ words methods)]
  | _ => []

/-- The glyphs of each item of a list. -/
def words : Value → List (List Glyph)
  | .list items => wordsOfAll items
  | _ => []

def wordsOfAll : List Value → List (List Glyph)
  | [] => []
  | v :: vs => glyphs v :: wordsOfAll vs

end

theorem words_list (items : List Value) : words (.list items) = items.map glyphs := by
  rw [words]
  induction items with
  | nil => rfl
  | cons v vs ih => rw [wordsOfAll, ih, List.map_cons]

theorem ifAny_of_ne {α : Type} {v : Value} (h : v ≠ .nil) (ws : List α) : ifAny v ws = ws := by
  unfold ifAny
  split
  · exact absurd rfl h
  · rfl

theorem ifHead_of_ne {v : Value} (h : v ≠ .nil) : ifHead v = "if-else" := by
  unfold ifHead
  split
  · exact absurd rfl h
  · rfl

/-! ## Texts of glyphs -/

/-- What glyphs are written as. -/
def written (gs : List Glyph) : String := .ofList (renderAll gs)

theorem renderAll_append (gs gs' : List Glyph) :
    renderAll (gs ++ gs') = renderAll gs ++ renderAll gs' := by
  induction gs with
  | nil => rfl
  | cons g gs ih => rw [List.cons_append, renderAll, renderAll, ih, List.append_assoc]

theorem written_append (gs gs' : List Glyph) : written (gs ++ gs') = written gs ++ written gs' := by
  rw [written, renderAll_append, String.ofList_append]
  rfl

theorem written_chars (s : String) : written (chars s) = s := by
  have hchars : ∀ cs : List Char, renderAll (cs.map char) = cs := by
    intro cs
    induction cs with
    | nil => rfl
    | cons c cs ih => rw [List.map_cons, renderAll, ih, render, List.singleton_append]
  rw [written, chars, hchars, String.ofList_toList]

theorem written_flatten (ws : List (List Glyph)) :
    written ws.flatten = String.join (ws.map written) := by
  induction ws with
  | nil => rfl
  | cons w ws ih => rw [List.flatten_cons, written_append, ih, List.map_cons, String.join_cons]

theorem written_group (head : List Glyph) (ws : List (List Glyph)) :
    written [group head ws] = parenthesized (written head) (ws.map written) := by
  have hwords : (String.join ((ws.map written).map (" " ++ ·))).toList = renderWords ws := by
    induction ws with
    | nil => rfl
    | cons w ws ih =>
      rw [List.map_cons, List.map_cons, String.join_cons, String.toList_append, ih, renderWords,
        String.toList_append, written, String.toList_ofList]
      simp
  apply String.toList_inj.mp
  rw [parenthesized, String.toList_append, String.toList_append, String.toList_append, hwords,
    written, written, String.toList_ofList, String.toList_ofList, renderAll, renderAll, render]
  simp

/-- The parameters of a function, in the parentheses after its name. -/
theorem written_ofWords (ws : List (List Glyph)) :
    written [ofWords ws] = "(" ++ " ".intercalate (ws.map written) ++ ")" := by
  cases ws with
  | nil => rfl
  | cons w ws =>
    have hwords : ∀ us : List String, ∀ u : String,
        u ++ String.join (us.map (" " ++ ·)) = " ".intercalate (u :: us) := by
      intro us
      induction us with
      | nil => simp
      | cons v us ih =>
        intro u
        rw [List.map_cons, String.join_cons, String.intercalate_cons_cons, ← ih,
          String.append_assoc, String.append_assoc]
    rw [ofWords, written_group, List.map_cons, ← hwords, parenthesized]
    simp only [String.append_assoc]

/-! ## Parts -/

variable {T : Terms} {v : Value} {vs : List Value} {ks : List TokenKind}

theorem lexeme_of_isWordToken (h : IsWordToken v) : lexeme v = .ok (written (glyphs v)) := by
  obtain ⟨text, line, -, rfl⟩ := h
  rw [lexeme, glyphs, written_chars]

theorem lexeme_of_isOperatorOf (h : IsOperatorOf ks v) : lexeme v = .ok (written (glyphs v)) := by
  obtain ⟨k, -, line, rfl⟩ := h
  rw [lexeme, glyphs, written_chars]

theorem literal_eq (h : v = .nil ∨ (plain? v).isSome) : literal v = .ok (literalText v) := by
  rcases h with rfl | h
  · rfl
  · obtain ⟨s, hs⟩ := Option.isSome_iff_exists.mp h
    cases v <;> first | rfl | exact absurd hs (by simp [plain?])

/-- A value that gives the text of its glyphs as its only part. -/
def IsWritten (v : Value) : Prop := parts v = .ok [written (glyphs v)]

theorem partsOfAll_eq (h : ∀ v ∈ vs, IsWritten v) :
    partsOfAll vs = .ok ((vs.map glyphs).map written) := by
  induction vs with
  | nil => rfl
  | cons v vs ih =>
    rw [List.forall_mem_cons] at h
    rw [partsOfAll, ih h.2, show parts v = _ from h.1]
    rfl

theorem formsOfAll_eq {m : Members} (hm : ∀ v ∈ vs, m.includes v) (h : ∀ v ∈ vs, IsWritten v) :
    formsOfAll m vs = .ok ((vs.map glyphs).map written) := by
  induction vs with
  | nil => rfl
  | cons v vs ih =>
    rw [List.forall_mem_cons] at h hm
    rw [formsOfAll, ih hm.2 h.2, if_pos hm.1, show parts v = _ from h.1]
    rfl

theorem lexemes_eq (h : ∀ v ∈ vs, IsWordToken v) :
    lexemes (.list vs) = .ok ((vs.map glyphs).map written) := by
  show vs.mapM lexeme = _
  induction vs with
  | nil => rfl
  | cons v vs ih =>
    rw [List.forall_mem_cons] at h
    rw [List.mapM_cons, ih h.2, lexeme_of_isWordToken h.1]
    rfl

end Form

open Form Glyph

variable {T : Terms} {v : Value}

namespace Value

/-- **An expression gives one part**, the text of its glyphs. -/
theorem MadeExpression.isWritten (hT : Terms.Plain T) (h : MadeExpression T v) : IsWritten v := by
  unfold IsWritten
  induction h with
  | nil => rfl
  | bool b => cases b <;> rfl
  | @literal v hv =>
    rw [parts, literal_eq (.inr (hT v hv)), glyphs, written_chars]
    rfl
  | this => rfl
  | @variableName text line _ _ =>
    rw [parts, glyphs, glyphs, written_chars]
    rfl
  | super hname =>
    rw [parts, lexeme_of_isWordToken hname, glyphs, written_group, written_chars]
    rfl
  | grouping _ ih =>
    rw [parts, ih, glyphs, written_group, written_chars]
    rfl
  | unary ho _ ih =>
    rw [parts, lexeme_of_isOperatorOf ho, ih, glyphs, written_group]
    rfl
  | binary ho _ _ ihl ihr =>
    rw [parts, lexeme_of_isOperatorOf ho, ihl, ihr, glyphs, written_group]
    rfl
  | logical ho _ _ ihl ihr =>
    rw [parts, lexeme_of_isOperatorOf ho, ihl, ihr, glyphs, written_group]
    rfl
  | call _ _ ih ihargs =>
    rw [parts, ih, parts, partsOfAll_eq ihargs, glyphs, words_list, written_group, written_chars]
    rfl
  | get _ hname ih =>
    rw [parts, lexeme_of_isWordToken hname, ih, glyphs, written_group, written_chars]
    rfl
  | set _ hname _ ih ihv =>
    rw [parts, lexeme_of_isWordToken hname, ih, ihv, glyphs, written_group, written_chars]
    rfl
  | assign hname _ ih =>
    rw [parts, lexeme_of_isWordToken hname, ih, glyphs, written_group, written_chars]
    rfl

/-! The layouts of blocks, functions and classes, as heads with parts. -/

theorem parenthesized_block (body : String) :
    parenthesized "block" [body] = "(block " ++ body ++ ")" := by
  apply String.toList_inj.mp
  simp [parenthesized, String.join_cons]

theorem parenthesized_fun (name params body : String) :
    parenthesized "fun" [name ++ ("(" ++ params ++ ")"), body] =
      "(fun " ++ name ++ "(" ++ params ++ ") " ++ body ++ ")" := by
  apply String.toList_inj.mp
  simp [parenthesized, String.join_cons]

theorem parenthesized_class (name base : String) (methods : List String) :
    parenthesized ("class" ++ name) (["<", base] ++ methods) =
        "(class" ++ name ++ (" < " ++ base) ++ String.join (methods.map (" " ++ ·)) ++ ")" ∧
      parenthesized ("class" ++ name) methods =
        "(class" ++ name ++ "" ++ String.join (methods.map (" " ++ ·)) ++ ")" := by
  constructor <;> apply String.toList_inj.mp <;> simp [parenthesized, String.join_cons]

theorem MadeStatement.isNode (h : MadeStatement T v) : v.isNode := by
  cases h <;> rfl

/-- **A statement gives one part**, the text of its glyphs. -/
theorem MadeStatement.isWritten (hT : Terms.Plain T) (h : MadeStatement T v) : IsWritten v := by
  unfold IsWritten
  induction h with
  | expressionStatement he | print he =>
    rw [parts, he.isWritten hT, glyphs, written_group, written_chars]
    rfl
  | returnNothing => rfl
  | returnStatement he =>
    rw [parts_returnStatement he.ne_nil, he.isWritten hT, glyphs, ifAny_of_ne he.ne_nil,
      written_group, written_chars]
    rfl
  | uninitialized hname =>
    rw [parts, lexeme_of_isWordToken hname, glyphs, written_group, written_chars]
    rfl
  | variableDeclaration hname he =>
    rw [parts_variableDeclaration he.ne_nil, lexeme_of_isWordToken hname, he.isWritten hT, glyphs,
      ifAny_of_ne he.ne_nil, written_group, written_chars, List.map_cons, List.map_cons,
      written_chars]
    rfl
  | block hs ih =>
    rw [parts, forms, formsOfAll_eq (m := .nodes) (fun s hs' => (hs s hs').isNode) ih, glyphs,
      words_list, written_group, written_chars, List.map_cons, written_flatten, List.map_nil,
      parenthesized_block]
    rfl
  | ifStatement hc _ ih =>
    rw [parts, hc.isWritten hT, ih, glyphs, written_group, written_chars]
    rfl
  | ifElseStatement hc _ he iht ihe =>
    rw [parts_ifStatement he.ne_nil, hc.isWritten hT, iht, ihe, glyphs, ifHead_of_ne he.ne_nil,
      ifAny_of_ne he.ne_nil, written_group, written_chars]
    rfl
  | whileStatement hc _ ih =>
    rw [parts, hc.isWritten hT, ih, glyphs, written_group, written_chars]
    rfl
  | functionDeclaration hname hparams hs ih =>
    rw [parts, lexemes_eq hparams, forms,
      formsOfAll_eq (m := .nodes) (fun s hs' => (hs s hs').isNode) ih, lexeme_of_isWordToken hname,
      glyphs, words_list, words_list, written_group, written_chars, List.map_cons, List.map_cons,
      written_append, written_ofWords, written_flatten, List.map_nil, parenthesized_fun]
    rfl
  | @classDeclaration name base methods hname hbase hfunctions hs ih =>
    have hmembers : ∀ f ∈ methods, Members.methods.includes f := by
      intro f hf
      obtain ⟨_, _, _, rfl⟩ := hfunctions f hf
      rfl
    rw [parts, forms, formsOfAll_eq hmembers ih, lexeme_of_isWordToken hname, glyphs, words_list,
      written_group, written_append, written_chars, List.map_append]
    rcases hbase with rfl | ⟨b, rfl, hb⟩
    · show Except.ok [_] = _
      rw [← (parenthesized_class _ "" _).2]
      rfl
    · rw [extending, lexeme_of_isWordToken hb, ifAny_of_ne (by simp), List.map_cons, written_chars,
        List.map_cons, List.map_nil, (parenthesized_class _ _ _).1, glyphs]
      rfl

/-- **A statement has a form**, the text of its glyphs. -/
theorem MadeStatement.form_eq (hT : Terms.Plain T) (h : MadeStatement T v) :
    v.form = .ok (written (glyphs v)) := by
  rw [form, if_pos h.isNode, show parts v = _ from h.isWritten hT]
  show Except.ok (String.join [written (glyphs v)]) = _
  rw [String.join_cons, String.join_nil, String.append_empty]

end Value

/-- **Statements have forms**, one each. -/
theorem Form.ofProgram_eq (hT : Terms.Plain T) {statements : List Value}
    (h : ∀ s ∈ statements, Value.MadeStatement T s) :
    ofProgram statements = .ok (statements.map fun s => written (glyphs s)) := by
  unfold ofProgram
  induction statements with
  | nil => rfl
  | cons s statements ih =>
    rw [List.forall_mem_cons] at h
    rw [List.mapM_cons, h.1.form_eq hT, ih h.2]
    rfl

end LoxForms
