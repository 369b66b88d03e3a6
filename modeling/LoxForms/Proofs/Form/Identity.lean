import LoxForms.Proofs.Form.Readback
import LoxForms.Proofs.Form.Safety
import LoxForms.Proofs.Parsing.Operands
/-!
# Forms identify programs

Nothing in the glyphs of a statement is taken for a blank or a parenthesis
(`MadeStatement.clean`), so a form tells its glyphs, and these tell the statement.
Two texts with the same forms are the same program up to lines, if they have no
strings and no infinite numbers in them: `Program.forms_eq_iff`.
-/

namespace LoxForms

open Form Glyph Value

/-! ## No marks -/

namespace Form

variable {s : String} {v : Value} {vs : List Value} {ks : List TokenKind}

theorem cleanAll_append (gs gs' : List Glyph) :
    cleanAll (gs ++ gs') = (cleanAll gs && cleanAll gs') := by
  induction gs with
  | nil => rfl
  | cons g gs ih => rw [List.cons_append, cleanAll, cleanAll, ih, Bool.and_assoc]

theorem cleanWords_eq (ws : List (List Glyph)) : cleanWords ws = ws.all cleanAll := by
  induction ws with
  | nil => rfl
  | cons w ws ih => rw [cleanWords, ih, List.all_cons]

theorem cleanAll_flatten (ws : List (List Glyph)) : cleanAll ws.flatten = cleanWords ws := by
  induction ws with
  | nil => rfl
  | cons w ws ih => rw [List.flatten_cons, cleanAll_append, cleanWords, ih]

theorem cleanWords_append (ws ws' : List (List Glyph)) :
    cleanWords (ws ++ ws') = (cleanWords ws && cleanWords ws') := by
  rw [cleanWords_eq, cleanWords_eq, cleanWords_eq, List.all_append]

theorem clean_group (head : List Glyph) (ws : List (List Glyph)) :
    cleanAll [group head ws] = (cleanAll head && cleanWords ws) := by
  rw [cleanAll, clean, cleanAll, Bool.and_true]

theorem clean_ofWords (ws : List (List Glyph)) : cleanAll [ofWords ws] = cleanWords ws := by
  cases ws with
  | nil => rfl
  | cons w ws => rw [ofWords, clean_group, cleanWords]

theorem cleanAll_chars (h : ∀ c ∈ s.toList, isMark c = false) : cleanAll (chars s) := by
  have hchars : ∀ cs : List Char, (∀ c ∈ cs, isMark c = false) → cleanAll (cs.map char) := by
    intro cs hcs
    induction cs with
    | nil => rfl
    | cons c cs ih =>
      rw [List.forall_mem_cons] at hcs
      rw [List.map_cons, cleanAll, clean, hcs.1, ih hcs.2]
      rfl
  exact hchars _ h

/-- What no mark is, is no mark. -/
theorem isMark_eq_false {p : Char → Bool} (hp : [' ', '(', ')'].any p = false) {c : Char}
    (hc : p c) : isMark c = false := by
  rw [isMark, Bool.eq_false_iff, ne_eq, List.contains_iff_mem]
  intro hmem
  exact List.any_eq_false.mp hp c hmem hc

theorem cleanAll_word (h : IsWordToken v) : cleanAll (glyphs v) := by
  obtain ⟨s, line, ⟨c, rest, hs, hc, hrest⟩, rfl⟩ := h
  rw [glyphs]
  refine cleanAll_chars fun d hd => ?_
  rw [hs, List.mem_cons] at hd
  rcases hd with rfl | hd
  · exact isMark_eq_false (p := Lexeme.isWordStart) rfl hc
  · exact isMark_eq_false (p := Lexeme.isWordPart) rfl (List.all_eq_true.mp hrest d hd)

theorem cleanAll_operator (hks : ks.all fun k => (k.spelling?.getD []).all fun c => !isMark c)
    (h : IsOperatorOf ks v) : cleanAll (glyphs v) := by
  obtain ⟨k, hk, line, rfl⟩ := h
  rw [glyphs]
  refine cleanAll_chars fun c hc => ?_
  rw [String.toList_ofList] at hc
  simpa using List.all_eq_true.mp (List.all_eq_true.mp hks k hk) c hc

theorem cleanWords_glyphs (h : ∀ v ∈ vs, cleanAll (glyphs v)) : cleanWords (vs.map glyphs) := by
  rw [cleanWords_eq, List.all_map]
  exact List.all_eq_true.mpr h

end Form

namespace Value

variable {v : Value}

theorem MadeExpression.clean (h : MadeExpression .telling v) : cleanAll (glyphs v) := by
  induction h with
  | nil => rfl
  | bool b => cases b <;> rfl
  | literal hv =>
    obtain ⟨negative, rank, rfl⟩ := hv
    rw [glyphs]
    exact cleanAll_chars fun c hc => isMark_eq_false (p := Double.isNumeral) rfl
      (List.all_eq_true.mp (Double.text_numeral negative rank).1 c hc)
  | this => rfl
  | @variableName s line hword _ =>
    rw [glyphs]
    exact cleanAll_word ⟨s, line, hword, rfl⟩
  | super hname =>
    rw [glyphs, clean_group, cleanWords, cleanAll_word hname]
    rfl
  | grouping _ ih =>
    rw [glyphs, clean_group, cleanWords, ih]
    rfl
  | unary ho _ ih =>
    rw [glyphs, clean_group, cleanWords, cleanAll_operator (by rfl) ho, ih]
    rfl
  | binary ho _ _ ihl ihr =>
    rw [glyphs, clean_group, cleanWords, cleanWords, cleanAll_operator (by rfl) ho, ihl, ihr]
    rfl
  | logical ho _ _ ihl ihr =>
    rw [glyphs, clean_group, cleanWords, cleanWords, cleanAll_operator (by rfl) ho, ihl, ihr]
    rfl
  | call _ _ ih ihargs =>
    rw [glyphs, words_list, clean_group, cleanWords, ih, cleanWords_glyphs ihargs]
    rfl
  | get _ hname ih =>
    rw [glyphs, clean_group, cleanWords, cleanWords, ih, cleanAll_word hname]
    rfl
  | set _ hname _ ih ihv =>
    rw [glyphs, clean_group, cleanWords, cleanWords, cleanWords, ih, cleanAll_word hname, ihv]
    rfl
  | assign hname _ ih =>
    rw [glyphs, clean_group, cleanWords, cleanWords, cleanAll_word hname, ih]
    rfl

theorem MadeStatement.clean (h : MadeStatement .telling v) : cleanAll (glyphs v) := by
  induction h with
  | expressionStatement he | print he =>
    rw [glyphs, clean_group, cleanWords, he.clean]
    rfl
  | returnNothing => rfl
  | returnStatement he =>
    rw [glyphs, ifAny_of_ne he.ne_nil, clean_group, cleanWords, he.clean]
    rfl
  | uninitialized hname =>
    rw [glyphs, clean_group, cleanWords, cleanAll_word hname]
    rfl
  | variableDeclaration hname he =>
    rw [glyphs, ifAny_of_ne he.ne_nil, clean_group, cleanWords, cleanWords, cleanWords,
      cleanAll_word hname, he.clean]
    rfl
  | block _ ih =>
    rw [glyphs, words_list, clean_group, cleanWords, cleanAll_flatten, cleanWords_glyphs ih]
    rfl
  | ifStatement hc _ ih =>
    rw [glyphs, clean_group, cleanWords, cleanWords, hc.clean, ih]
    rfl
  | ifElseStatement hc _ he iht ihe =>
    rw [glyphs, ifHead_of_ne he.ne_nil, ifAny_of_ne he.ne_nil, clean_group, cleanWords, cleanWords,
      cleanWords, hc.clean, iht, ihe]
    rfl
  | whileStatement hc _ ih =>
    rw [glyphs, clean_group, cleanWords, cleanWords, hc.clean, ih]
    rfl
  | functionDeclaration hname hparams _ ih =>
    have hclean := cleanWords_glyphs fun p hp => cleanAll_word (hparams p hp)
    rw [glyphs, words_list, words_list, clean_group, cleanWords, cleanWords, cleanAll_append,
      clean_ofWords, cleanAll_flatten, cleanAll_word hname, hclean, cleanWords_glyphs ih]
    rfl
  | classDeclaration hname hbase _ _ ih =>
    rw [glyphs, words_list, clean_group, cleanAll_append, cleanWords_append, cleanAll_word hname,
      cleanWords_glyphs ih]
    rcases hbase with rfl | ⟨b, rfl, hb⟩
    · rfl
    · rw [ifAny_of_ne (by simp), glyphs, cleanWords, cleanWords, cleanAll_word hb]
      rfl

/-- **A form tells its statement**, up to lines. -/
theorem MadeStatement.unplaced_eq {w : Value} (hv : MadeStatement .telling v)
    (hw : MadeStatement .telling w) (h : written (glyphs v) = written (glyphs w)) :
    v.unplaced = w.unplaced := by
  have hglyphs : glyphs v = glyphs w :=
    renderAll_injective hv.clean hw.clean (String.ofList_injective h)
  have hrun : [v.unplaced] = [w.unplaced] := by rw [← hv.run_glyphs, hglyphs, hw.run_glyphs]
  exact List.singleton_inj.mp hrun

end Value

/-- Statements whose forms are the same one by one are the same up to lines. -/
theorem Value.unplaced_eq_of_written_eq {vs ws : List Value}
    (hvs : ∀ v ∈ vs, MadeStatement .telling v) (hws : ∀ w ∈ ws, MadeStatement .telling w)
    (h : vs.map (fun v => written (glyphs v)) = ws.map fun w => written (glyphs w)) :
    vs.map unplaced = ws.map unplaced := by
  induction vs generalizing ws with
  | nil => rw [List.map_eq_nil_iff.mp h.symm]
  | cons v vs ih =>
    cases ws with
    | nil => exact absurd h (by simp)
    | cons w ws =>
      rw [List.forall_mem_cons] at hvs hws
      obtain ⟨hfirst, hrest⟩ := List.cons.inj h
      rw [List.map_cons, List.map_cons, hvs.1.unplaced_eq hws.1 hfirst, ih hvs.2 hws.2 hrest]

/-! ## Texts -/

def Double.isFinite : Double → Bool
  | finite .. => true
  | infinite _ | nan => false

/-- To be no string, and if a number, then a finite one. -/
def Lexeme.Telling (l : Lexeme) : Prop :=
  l.kind ≠ .string ∧ (l.kind = .number → (Double.ofText? l.text).any Double.isFinite)

instance (l : Lexeme) : Decidable l.Telling := inferInstanceAs (Decidable (_ ∧ _))

theorem Lexeme.Telling.bears {l : Lexeme} (h : l.Telling) (hfound : Found l.kind l.text.toList) :
    l.Bears .telling := by
  refine ⟨hfound, fun hk => ?_⟩
  simp only [List.mem_cons, List.not_mem_nil, or_false] at hk
  rcases hk with hk | hk
  · have hfinite := h.2 hk
    unfold Denotes
    rw [hk]
    cases hx : Double.ofText? l.text with
    | none =>
      rw [hx] at hfinite
      exact absurd hfinite (by simp)
    | some x =>
      rw [hx, Option.any_some] at hfinite
      cases x with
      | finite negative rank => exact ⟨_, ⟨_, rfl, rfl⟩, negative, rank, rfl⟩
      | infinite => exact absurd hfinite (by simp [Double.isFinite])
      | nan => exact absurd hfinite (by simp [Double.isFinite])
  · exact absurd hk h.1

theorem Lexeme.Free.lookedUp {l : Lexeme} (h : l.Free) : Terms.telling.lookedUp l.text := by
  have hword : ∀ k ∈ TokenKind.operandWords, ∀ t : String, k.spelling? = some t.toList →
      l.text ≠ t := by
    rintro k hk t hspelled rfl
    exact h k hk hspelled
  intro t ht
  simp only [List.mem_cons, List.not_mem_nil, or_false] at ht
  rcases ht with rfl | rfl | rfl | rfl
  · exact hword .nilWord (by simp [TokenKind.operandWords]) _ rfl
  · exact hword .trueWord (by simp [TokenKind.operandWords]) _ rfl
  · exact hword .falseWord (by simp [TokenKind.operandWords]) _ rfl
  · exact hword .thisWord (by simp [TokenKind.operandWords]) _ rfl

namespace Program

/-- A text is a program of these statements, and has no strings and no infinite
numbers in it. -/
structure Tells (text : String) (statements : List Value) : Prop where
  telling : ∃ parsed, Parsed.ofText text = .ok parsed ∧ ∀ l ∈ parsed.lexemes, l.Telling
  program : ofText text = .ok statements

variable {text : String} {statements : List Value}

theorem Tells.made (h : Tells text statements) : ∀ s ∈ statements, MadeStatement .telling s := by
  obtain ⟨parsed, hparsed, htelling⟩ := h.telling
  have hbears : ∀ l ∈ parsed.lexemes, l.Bears .telling :=
    fun l hl => (htelling l hl).bears (Parsed.found hparsed l hl)
  have hlookups : ∀ l ∈ parsed.tree.lookups, Terms.telling.lookedUp l.text :=
    fun l hl => (Parsed.lookups_free hparsed l hl).lookedUp
  obtain ⟨parsed', hparsed', v, hbuild, rfl⟩ := ofText_eq_ok.mp h.program
  obtain rfl := Except.ok.inj (hparsed.symm.trans hparsed')
  rcases Parsed.comes hparsed hbears hlookups with ⟨w, hw, items, rfl, hmade⟩ | ⟨e, he, -⟩
  · obtain rfl := Except.ok.inj (hbuild.symm.trans hw)
    exact hmade
  · exact absurd (hbuild.symm.trans he) (by simp)

theorem Tells.forms_eq (h : Tells text statements) :
    Dump.forms text = .ok (statements.map fun s => written (glyphs s)) := by
  rw [Dump.forms, h.program]
  show (Form.ofProgram statements).mapError _ = _
  rw [Form.ofProgram_eq Terms.telling_plain h.made]
  rfl

/-- What is computed of a text to know that it is such a program, and its forms. -/
theorem exists_tells {lines : List String} (h : (Parsed.ofText text).toOption.any fun parsed =>
      (parsed.lexemes.all fun l => decide l.Telling) && (ofTree parsed.tree).toOption.any
        fun statements => (Form.ofProgram statements).toOption = some lines) :
    ∃ statements, Tells text statements ∧ Dump.forms text = .ok lines := by
  cases hparsed : Parsed.ofText text with
  | error e =>
    rw [hparsed] at h
    exact absurd h (by simp [Except.toOption])
  | ok parsed =>
    rw [hparsed] at h
    obtain ⟨htelling, h⟩ := (Bool.and_eq_true _ _).mp h
    cases htree : ofTree parsed.tree with
    | error e =>
      rw [htree] at h
      exact absurd h (by simp [Except.toOption])
    | ok statements =>
      rw [htree] at h
      have hprogram : ofText text = .ok statements := by
        rw [ofText_of_ofText hparsed, htree]
        rfl
      have htells : Tells text statements :=
        ⟨⟨parsed, hparsed, fun l hl => of_decide_eq_true (List.all_eq_true.mp htelling l hl)⟩,
          hprogram⟩
      have hforms := Form.ofProgram_eq Terms.telling_plain htells.made
      have hlines : some (statements.map fun s => written (glyphs s)) = some lines := by
        have hcomputed := of_decide_eq_true h
        rwa [hforms] at hcomputed
      exact ⟨statements, htells, by rw [htells.forms_eq, Option.some.inj hlines]⟩

/-- **Forms identify programs.** Two texts without strings and infinite numbers have
the same forms just if they are the same program, up to the lines of its tokens. -/
theorem forms_eq_iff {text' : String} {statements' : List Value}
    (h : Tells text statements) (h' : Tells text' statements') :
    Dump.forms text = Dump.forms text' ↔ statements.map unplaced = statements'.map unplaced := by
  constructor
  · intro hforms
    rw [h.forms_eq, h'.forms_eq] at hforms
    exact unplaced_eq_of_written_eq h.made h'.made (Except.ok.inj hforms)
  · intro hstatements
    refine Dump.forms_congr ?_
    rw [h.program, h'.program]
    exact congrArg Except.ok hstatements

/-- Names that are reserved words elsewhere, both uses of each shared head, and two
statements without anything between them. -/
theorem forms_eq_iff_class : ∃ statements statements',
    Tells "class this<nil\x7btrue(false,or)\x7bx=1.50;x.if=-x-x;\x7d\x7d" statements ∧
    Tells "class this < nil \x7btrue(false, or) \x7bx = 1.5; x.if = -x - x;\x7d\x7d" statements' ∧
    statements.map unplaced = statements'.map unplaced := by
  obtain ⟨statements, h, hforms⟩ : ∃ statements,
      Tells "class this<nil\x7btrue(false,or)\x7bx=1.50;x.if=-x-x;\x7d\x7d" statements ∧
        Dump.forms "class this<nil\x7btrue(false,or)\x7bx=1.50;x.if=-x-x;\x7d\x7d" = .ok
          ["(classthis < nil (fun true(false or) (; (= x 1.5))(; (= x if (- (- x) x)))))"] :=
    exists_tells (by decide +kernel)
  obtain ⟨statements', h', hforms'⟩ : ∃ statements',
      Tells "class this < nil \x7btrue(false, or) \x7bx = 1.5; x.if = -x - x;\x7d\x7d" statements' ∧
        Dump.forms "class this < nil \x7btrue(false, or) \x7bx = 1.5; x.if = -x - x;\x7d\x7d" = .ok
          ["(classthis < nil (fun true(false or) (; (= x 1.5))(; (= x if (- (- x) x)))))"] :=
    exists_tells (by decide +kernel)
  exact ⟨statements, statements', h, h', (forms_eq_iff h h').mp (hforms.trans hforms'.symm)⟩

end Program

end LoxForms
