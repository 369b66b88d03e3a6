import LoxForms.Dump
import LoxForms.Proofs.Building.Lines
import LoxForms.Proofs.Parsing.Layout
/-!
# Places do not matter

Of the places of its lexemes a tree's values keep the lines only
(`Tree.build_bare`), and a form does not show these (`Value.form_unplaced`). So
a text that is laid out in another way stands for the same program up to lines,
and has the same forms: `Parsed.laidOut_forms`.
-/

namespace LoxForms

open Value

/-! ## Building without places -/

/-- A lexeme as a token on line 0, wherever it stands. -/
def Program.readBare (u : TokenKind × String) : Except BuildError Value :=
  Building.readToken u.1.grammarName u.2 0

theorem Program.readBare_bare (l : Lexeme) : readBare l.bare = unplaced <$> readLexeme l := by
  unfold readBare readLexeme Building.readToken Lexeme.bare
  cases TokenKind.ofName? l.kind.grammarName with
  | none => rfl
  | some k =>
    cases k <;> try rfl
    cases Double.ofText? l.text <;> rfl

namespace Tree

variable {α β : Type} {g : α → β} {f : Int → Int}
variable {read : α → Except BuildError Value} {read' : β → Except BuildError Value}

mutual

/-- **What a tree stands for with its leaves changed** is what it stands for, on the
lines that the leaves are on then. -/
theorem build_map (h : ∀ a, read' (g a) = relined f <$> read a) : (t : Tree α) →
    (t.map g).build read' = relined f <$> t.build read
  | .node l ts => by
    rw [map, build, build, buildAll_map h ts]
    cases buildAll read ts with
    | error e => rfl
    | ok vs => exact Building.ofNode_relined l vs
  | .leaf a => h a
  | .absent => rfl

theorem buildAll_map (h : ∀ a, read' (g a) = relined f <$> read a) : (ts : List (Tree α)) →
    buildAll read' (mapAll g ts) = List.map (relined f) <$> buildAll read ts
  | [] => rfl
  | t :: ts => by
    rw [mapAll, buildAll, buildAll, build_map h t, buildAll_map h ts]
    cases t.build read with
    | error e => rfl
    | ok v => cases buildAll read ts <;> rfl

end

/-- **What a tree stands for without places** is what it stands for, up to
lines. -/
theorem build_bare (t : Tree Lexeme) :
    (t.map Lexeme.bare).build Program.readBare = unplaced <$> t.build Program.readLexeme := by
  rw [unplaced_eq]
  refine build_map (fun l => ?_) t
  rw [Program.readBare_bare, unplaced_eq]

end Tree

theorem Program.statements_unplaced (v : Value) :
    statements (unplaced v) = (statements v).map unplaced := by
  cases v with
  | list items => exact unplacedAll_eq items
  | _ => rfl

theorem Program.ofTree_unplaced {t t' : Tree Lexeme}
    (h : t'.map Lexeme.bare = t.map Lexeme.bare) :
    List.map unplaced <$> ofTree t' = List.map unplaced <$> ofTree t := by
  have hbuild : unplaced <$> t'.build readLexeme = unplaced <$> t.build readLexeme := by
    rw [← Tree.build_bare, ← Tree.build_bare, h]
  have hstatements : ∀ x : Except BuildError Value,
      List.map unplaced <$> (return statements (← x)) = statements <$> unplaced <$> x := by
    intro x
    cases x with
    | error e => rfl
    | ok v => exact congrArg Except.ok (statements_unplaced v).symm
  rw [ofTree, ofTree, hstatements, hstatements, hbuild]

/-! ## Forms without lines -/

namespace Value

theorem variant?_unplaced (v : Value) : (unplaced v).variant? = v.variant? := by
  cases v <;> rfl

theorem typeName_unplaced (v : Value) : (unplaced v).typeName = v.typeName := by
  cases v <;> rfl

theorem isNode_unplaced (v : Value) : (unplaced v).isNode = v.isNode :=
  congrArg Option.isSome (variant?_unplaced v)

end Value

namespace Form

theorem lexeme_unplaced (v : Value) : lexeme (unplaced v) = lexeme v := by
  cases v <;> rfl

theorem mapM_lexeme_unplaced (vs : List Value) :
    (vs.map unplaced).mapM lexeme = vs.mapM lexeme := by
  induction vs with
  | nil => rfl
  | cons v vs ih => rw [List.map_cons, List.mapM_cons, List.mapM_cons, ih, lexeme_unplaced]

theorem lexemes_unplaced (v : Value) : lexemes (unplaced v) = lexemes v := by
  cases v with
  | list items =>
    rw [unplaced_list]
    exact mapM_lexeme_unplaced items
  | _ => rfl

theorem extending_unplaced (v : Value) : extending (unplaced v) = extending v := by
  cases v with
  | variableName name =>
    rw [unplaced, extending, extending, lexeme_unplaced]
  | _ => rfl

theorem Members.includes_unplaced (m : Members) (v : Value) :
    m.includes (unplaced v) = m.includes v := by
  cases m with
  | nodes => exact isNode_unplaced v
  | methods => rw [includes, includes, variant?_unplaced]

theorem Members.refuse_unplaced {α : Type} (m : Members) (v : Value) :
    (m.refuse (unplaced v) : Except Fault α) = m.refuse v := by
  rw [refuse, refuse, typeName_unplaced]

/-! The variants whose form depends on a part being there. -/

theorem parts_returnStatement {v : Value} (h : v ≠ .nil) : parts (.returnStatement v) =
    node .returnStatement (do return parenthesized "return" (← parts v)) := by
  cases v <;> first | rfl | contradiction

theorem parts_variableDeclaration {name v : Value} (h : v ≠ .nil) :
    parts (.variableDeclaration name v) = node .variableDeclaration (do
      let variableName ← lexeme name
      return parenthesized "var" (variableName :: "=" :: (← parts v))) := by
  cases v <;> first | rfl | contradiction

theorem parts_ifStatement {condition thenBranch v : Value} (h : v ≠ .nil) :
    parts (.ifStatement condition thenBranch v) = node .ifStatement (do
      return parenthesized "if-else"
        ((← parts condition) ++ (← parts thenBranch) ++ (← parts v))) := by
  cases v <;> first | rfl | contradiction

mutual

/-- **The parts of a form do not show lines.** -/
theorem parts_unplaced : (v : Value) → parts (unplaced v) = parts v
  | .list items => partsOfAll_unplaced items
  | .binary l o r => by
    simp only [unplaced, parts, lexeme_unplaced, parts_unplaced l, parts_unplaced r]
  | .logical l o r => by
    simp only [unplaced, parts, lexeme_unplaced, parts_unplaced l, parts_unplaced r]
  | .grouping e => by simp only [unplaced, parts, parts_unplaced e]
  | .unary o r => by simp only [unplaced, parts, lexeme_unplaced, parts_unplaced r]
  | .variableName n => by simp only [unplaced, parts, lexeme_unplaced]
  | .assign n v => by simp only [unplaced, parts, lexeme_unplaced, parts_unplaced v]
  | .call c a => by simp only [unplaced, parts, parts_unplaced c, parts_unplaced a]
  | .get o n => by simp only [unplaced, parts, lexeme_unplaced, parts_unplaced o]
  | .set o n v => by
    simp only [unplaced, parts, lexeme_unplaced, parts_unplaced o, parts_unplaced v]
  | .super m => by simp only [unplaced, parts, lexeme_unplaced]
  | .expressionStatement e => by simp only [unplaced, parts, parts_unplaced e]
  | .print e => by simp only [unplaced, parts, parts_unplaced e]
  | .returnStatement v => by
    by_cases h : v = .nil
    · subst h
      rfl
    · rw [unplaced, parts_returnStatement h, parts_returnStatement (mt unplaced_eq_nil.mp h),
        parts_unplaced v]
  | .variableDeclaration n v => by
    by_cases h : v = .nil
    · subst h
      simp only [unplaced, parts, lexeme_unplaced]
    · rw [unplaced, parts_variableDeclaration h,
        parts_variableDeclaration (mt unplaced_eq_nil.mp h), lexeme_unplaced, parts_unplaced v]
  | .block s => by simp only [unplaced, parts, forms_unplaced .nodes s]
  | .ifStatement c t v => by
    by_cases h : v = .nil
    · subst h
      simp only [unplaced, parts, parts_unplaced c, parts_unplaced t]
    · rw [unplaced, parts_ifStatement h, parts_ifStatement (mt unplaced_eq_nil.mp h),
        parts_unplaced c, parts_unplaced t, parts_unplaced v]
  | .whileStatement c b => by simp only [unplaced, parts, parts_unplaced c, parts_unplaced b]
  | .functionDeclaration n p b => by
    simp only [unplaced, parts, lexeme_unplaced, lexemes_unplaced, forms_unplaced .nodes b]
  | .classDeclaration n s m => by
    simp only [unplaced, parts, lexeme_unplaced, extending_unplaced, forms_unplaced .methods m]
  | .nil | .bool _ | .int _ | .float _ | .text _ | .tuple _ | .dictionary _ | .bytes _ | .kind _
  | .object | .token .. | .literal _ | .this | .otherExpression _ | .tree .. => rfl

theorem partsOfAll_unplaced : (vs : List Value) → partsOfAll (unplacedAll vs) = partsOfAll vs
  | [] => rfl
  | v :: vs => by rw [unplacedAll, partsOfAll, partsOfAll, parts_unplaced v, partsOfAll_unplaced vs]

theorem forms_unplaced (m : Members) : (v : Value) → forms m (unplaced v) = forms m v
  | .list items => formsOfAll_unplaced m items
  | .nil | .bool _ | .int _ | .float _ | .text _ | .tuple _ | .dictionary _ | .bytes _ | .kind _
  | .object | .token .. | .binary .. | .grouping _ | .literal _ | .unary .. | .variableName _
  | .assign .. | .logical .. | .call .. | .get .. | .set .. | .super _ | .this
  | .otherExpression _ | .expressionStatement _ | .print _ | .returnStatement _
  | .variableDeclaration .. | .block _ | .ifStatement .. | .whileStatement ..
  | .functionDeclaration .. | .classDeclaration .. | .tree .. => rfl

theorem formsOfAll_unplaced (m : Members) :
    (vs : List Value) → formsOfAll m (unplacedAll vs) = formsOfAll m vs
  | [] => rfl
  | v :: vs => by
    rw [unplacedAll, formsOfAll, formsOfAll, m.includes_unplaced, m.refuse_unplaced,
      parts_unplaced v, formsOfAll_unplaced m vs]

end

end Form

/-- **A form does not show lines.** -/
theorem Value.form_unplaced (v : Value) : (unplaced v).form = v.form := by
  rw [form, form, isNode_unplaced, Form.parts_unplaced, typeName_unplaced]

theorem Form.ofProgram_unplaced (vs : List Value) :
    ofProgram (vs.map unplaced) = ofProgram vs := by
  unfold ofProgram
  induction vs with
  | nil => rfl
  | cons v vs ih => rw [List.map_cons, List.mapM_cons, List.mapM_cons, ih, form_unplaced]

/-! ## Texts that are laid out in another way -/

theorem Program.ofText_of_ofText {text : String} {parsed : Parsed}
    (h : Parsed.ofText text = .ok parsed) :
    ofText text = (ofTree parsed.tree).mapError .noProgram := by
  rw [ofText, h]
  rfl

theorem Building.map_mapError {ε ε' α β : Type} (f : ε → ε') (g : α → β) (x : Except ε α) :
    g <$> x.mapError f = (g <$> x).mapError f := by
  cases x <;> rfl

/-- **The forms of a text do not show the lines of its program.** -/
theorem Dump.forms_congr {text text' : String}
    (h : List.map unplaced <$> Program.ofText text' = List.map unplaced <$> Program.ofText text) :
    forms text' = forms text := by
  unfold forms
  cases hp : Program.ofText text with
  | error e =>
    cases hp' : Program.ofText text' with
    | error e' =>
      rw [hp, hp'] at h
      obtain rfl := Except.error.inj h
      rfl
    | ok vs' =>
      rw [hp, hp'] at h
      exact nomatch h
  | ok vs =>
    cases hp' : Program.ofText text' with
    | error e' =>
      rw [hp, hp'] at h
      exact nomatch h
    | ok vs' =>
      rw [hp, hp'] at h
      have hvs : vs'.map unplaced = vs.map unplaced := Except.ok.inj h
      have hforms : Form.ofProgram vs' = Form.ofProgram vs := by
        rw [← Form.ofProgram_unplaced, hvs, Form.ofProgram_unplaced]
      exact congrArg (Except.mapError DumpError.fault) hforms

/-- **Layout does not matter.** If a text is read, it is also read when its
lexemes are laid out in another way: as the same lexemes and with the same tree,
up to places. It stands for the same program then, up to lines, or for none for
the same reason; and its forms are the same. -/
theorem Parsed.laidOut_forms {text text' : String} {parsed : Parsed}
    (h : Parsed.ofText text = .ok parsed)
    (hl : LaidOut (parsed.lexemes.map Lexeme.text) text'.toList) :
    (∃ parsed', Parsed.ofText text' = .ok parsed' ∧
      parsed'.lexemes.map Lexeme.bare = parsed.lexemes.map Lexeme.bare ∧
      parsed'.tree.map Lexeme.bare = parsed.tree.map Lexeme.bare) ∧
    List.map unplaced <$> Program.ofText text' = List.map unplaced <$> Program.ofText text ∧
    Dump.forms text' = Dump.forms text := by
  obtain ⟨parsed', h', hlexemes, htree⟩ := Parsed.laidOut h hl
  have hprogram : List.map unplaced <$> Program.ofText text' =
      List.map unplaced <$> Program.ofText text := by
    rw [Program.ofText_of_ofText h, Program.ofText_of_ofText h', Building.map_mapError,
      Building.map_mapError, Program.ofTree_unplaced htree]
  exact ⟨⟨parsed', h', hlexemes, htree⟩, hprogram, Dump.forms_congr hprogram⟩

/-- The words and signs of one text, far apart in another one. -/
theorem Parsed.laidOut_forms_apart : ∃ parsed,
    Parsed.ofText "print-1;" = .ok parsed ∧
    LaidOut (parsed.lexemes.map Lexeme.text) "// one\nprint\t-\r\n// less\n\n1 ; // end".toList ∧
    Dump.forms "// one\nprint\t-\r\n// less\n\n1 ; // end" = Dump.forms "print-1;" := by
  have hread : (Parsed.ofText "print-1;").toOption.map
      (fun parsed => parsed.lexemes.map Lexeme.text) = some ["print", "-", "1", ";"] := by
    decide +kernel
  have hpieces : "// one\nprint\t-\r\n// less\n\n1 ; // end".toList =
      ('/' :: '/' :: (" one".toList ++ '\n' :: [])) ++ ("print".toList ++ (['\t'] ++
        ("-".toList ++ (('\r' :: '\n' :: '/' :: '/' :: (" less".toList ++ '\n' :: ['\n'])) ++
          ("1".toList ++ ([' '] ++ (";".toList ++ ([' '] ++ '/' :: '/' :: " end".toList)))))))) := by
    decide +kernel
  cases hp : Parsed.ofText "print-1;" with
  | error e => rw [hp] at hread; exact absurd hread (by simp [Except.toOption])
  | ok parsed =>
    rw [hp] at hread
    have hwords : parsed.lexemes.map Lexeme.text = ["print", "-", "1", ";"] := Option.some.inj hread
    have hlaid : LaidOut (parsed.lexemes.map Lexeme.text)
        "// one\nprint\t-\r\n// less\n\n1 ; // end".toList := by
      rw [hwords, hpieces]
      refine .text (.comment (by decide +kernel) .nil) ?_
      refine .next (.blank rfl .nil) (List.cons_ne_nil _ _) (Lexeme.atBlank_cons rfl _) ?_
      refine .next (.blank rfl (.blank rfl (.comment (by decide +kernel) (.blank rfl .nil))))
        (List.cons_ne_nil _ _) (Lexeme.atBlank_cons rfl _) ?_
      refine .next (.blank rfl .nil) (List.cons_ne_nil _ _) (Lexeme.atBlank_cons rfl _) ?_
      exact .last (.comment (.blank rfl .nil) (by decide +kernel)) (Lexeme.atBlank_cons rfl _)
    exact ⟨parsed, rfl, hlaid, (Parsed.laidOut_forms hp hlaid).2.2⟩

end LoxForms
