import LoxForms.Proofs.Building.Strings
import LoxForms.Proofs.Double.Printed
import LoxForms.Proofs.Form.Tracing
/-!
# Lines of a dump

Each form of a dump ends a line, but it need not be on one line: a string can go on over
several lines, and its form shows it as it is. There is no other way for a line break to
get into a form, since neither names nor operators nor numbers have any, and none is put
between the parts. So the lines of a dump are its forms just if no string of the text has
a line break in it (`Dump.lines_iff`).
-/

namespace LoxForms

open Value

/-- The line breaks in a text. -/
def breaks (s : String) : Nat := s.toList.count '\n'

theorem breaks_append (s t : String) : breaks (s ++ t) = breaks s + breaks t := by
  rw [breaks, String.toList_append, List.count_append]
  rfl

theorem breaks_eq_zero {s : String} : breaks s = 0 ↔ '\n' ∉ s.toList := List.count_eq_zero

theorem breaks_join (ss : List String) : breaks (String.join ss) = (ss.map breaks).sum := by
  induction ss with
  | nil => rfl
  | cons s ss ih => rw [String.join_cons, breaks_append, ih, List.map_cons, List.sum_cons]

theorem sum_map_eq_zero_iff {α : Type} {f : α → Nat} {as : List α} :
    (as.map f).sum = 0 ↔ ∀ a ∈ as, f a = 0 := by
  rw [List.sum_eq_zero_iff_forall_eq_nat, List.forall_mem_map]

/-! ## Forms -/

namespace Form

/-- The line breaks in what words are written as. -/
def breaksIn (ws : List (List Glyph)) : Nat := (ws.map fun w => breaks (written w)).sum

variable {v : Value} {vs : List Value} {ks : List TokenKind}

theorem breaksIn_nil : breaksIn [] = 0 := rfl

theorem breaksIn_cons (w : List Glyph) (ws : List (List Glyph)) :
    breaksIn (w :: ws) = breaks (written w) + breaksIn ws := by
  rw [breaksIn, List.map_cons, List.sum_cons]
  rfl

theorem breaksIn_append (ws ws' : List (List Glyph)) :
    breaksIn (ws ++ ws') = breaksIn ws + breaksIn ws' := by
  rw [breaksIn, List.map_append, List.sum_append]
  rfl

theorem breaks_flatten (ws : List (List Glyph)) : breaks (written ws.flatten) = breaksIn ws := by
  rw [written_flatten, breaks_join, List.map_map]
  rfl

theorem breaks_group (head : List Glyph) (ws : List (List Glyph)) :
    breaks (written [.group head ws]) = breaks (written head) + breaksIn ws := by
  have hblank (w : List Glyph) : breaks (" " ++ written w) = breaks (written w) := by
    rw [breaks_append, show breaks " " = 0 from rfl, Nat.zero_add]
  have hwords : breaks (String.join ((ws.map written).map (" " ++ ·))) = breaksIn ws := by
    rw [breaks_join, List.map_map, List.map_map]
    exact congrArg List.sum (List.map_congr_left fun w _ => hblank w)
  rw [written_group, parenthesized, breaks_append, breaks_append, breaks_append, hwords,
    show breaks "(" = 0 from rfl, show breaks ")" = 0 from rfl, Nat.zero_add, Nat.add_zero]

/-- A group with a head on one line. -/
theorem breaks_named (head : String) (h : breaks head = 0) (ws : List (List Glyph)) :
    breaks (written [.group (chars head) ws]) = breaksIn ws := by
  rw [breaks_group, written_chars, h, Nat.zero_add]

theorem breaks_ofWords (ws : List (List Glyph)) : breaks (written [ofWords ws]) = breaksIn ws := by
  cases ws with
  | nil => rfl
  | cons w ws => rw [ofWords, breaks_group, breaksIn_cons]

theorem breaksIn_glyphs (h : ∀ v ∈ vs, breaks (written (glyphs v)) = v.weight breaks) :
    breaksIn (vs.map glyphs) = weightOfAll breaks vs := by
  induction vs with
  | nil => rfl
  | cons v vs ih =>
    rw [List.forall_mem_cons] at h
    rw [List.map_cons, breaksIn_cons, h.1, ih h.2, weightOfAll]

theorem breaks_word (h : IsWordToken v) :
    breaks (written (glyphs v)) = 0 ∧ v.weight breaks = 0 := by
  obtain ⟨s, line, ⟨c, rest, hs, hc, hrest⟩, rfl⟩ := h
  refine ⟨?_, rfl⟩
  rw [glyphs, written_chars, breaks_eq_zero, hs, List.mem_cons, not_or]
  constructor
  · rintro rfl
    exact absurd hc (by decide)
  · intro hmem
    exact absurd (List.all_eq_true.mp hrest _ hmem) (by decide)

theorem breaks_operator (hks : ks.all fun k => (k.spelling?.getD []).count '\n' = 0)
    (h : IsOperatorOf ks v) : breaks (written (glyphs v)) = 0 ∧ v.weight breaks = 0 := by
  obtain ⟨k, hk, line, rfl⟩ := h
  refine ⟨?_, rfl⟩
  rw [glyphs, written_chars, breaks, String.toList_ofList]
  exact of_decide_eq_true (List.all_eq_true.mp hks k hk)

theorem breaks_base (h : IsBase v) :
    breaksIn (ifAny v [chars "<", glyphs v]) = v.weight breaks := by
  rcases h with rfl | ⟨name, rfl, hname⟩
  · rfl
  · obtain ⟨hwritten, hweight⟩ := breaks_word hname
    rw [ifAny_of_ne (by simp), glyphs, breaksIn_cons, breaksIn_cons, breaksIn_nil, hwritten,
      written_chars, Value.weight, hweight]
    rfl

end Form

namespace Value

open Form

variable {v : Value} {statements : List Value}

/-- What a literal is written as has the line breaks of its string, if it is one. -/
theorem breaks_literal (h : Terms.any.denoted v) :
    breaks (written (glyphs (literal v))) = v.weight breaks := by
  rw [glyphs, written_chars]
  obtain ⟨x, rfl⟩ | ⟨s, rfl⟩ := h
  · show breaks x.text = 0
    cases x with
    | finite negative rank =>
      refine breaks_eq_zero.mpr fun hmem => ?_
      exact absurd (List.all_eq_true.mp (Double.text_numeral negative rank).1 _ hmem) (by decide)
    | infinite negative => cases negative <;> rfl
    | nan => rfl
  · rfl

theorem MadeExpression.breaks_eq (h : MadeExpression .any v) :
    breaks (written (glyphs v)) = v.weight breaks := by
  induction h with
  | nil => rfl
  | bool b => cases b <;> rfl
  | literal hv => exact breaks_literal hv
  | this => rfl
  | @variableName s line hword _ =>
    exact (breaks_word ⟨s, line, hword, rfl⟩).1
  | super hname =>
    obtain ⟨hwritten, hweight⟩ := breaks_word hname
    rw [glyphs, breaks_named "super" rfl, breaksIn_cons, breaksIn_nil, weight, hwritten, hweight]
  | grouping _ ih =>
    rw [glyphs, breaks_named "group" rfl, breaksIn_cons, breaksIn_nil, weight, ih]
    rfl
  | unary ho _ ih =>
    obtain ⟨hwritten, hweight⟩ := breaks_operator (by rfl) ho
    rw [glyphs, breaks_group, breaksIn_cons, breaksIn_nil, weight, hwritten, hweight, ih]
    rfl
  | binary ho _ _ ihl ihr | logical ho _ _ ihl ihr =>
    obtain ⟨hwritten, hweight⟩ := breaks_operator (by rfl) ho
    simp only [glyphs, breaks_group, breaksIn_cons, breaksIn_nil, weight, hwritten, hweight, ihl,
      ihr]
    omega
  | call _ _ ih ihargs =>
    rw [glyphs, words_list, breaks_named "call" rfl, breaksIn_cons, ih, breaksIn_glyphs ihargs]
    rfl
  | get _ hname ih =>
    obtain ⟨hwritten, hweight⟩ := breaks_word hname
    rw [glyphs, breaks_named "." rfl, breaksIn_cons, breaksIn_cons, breaksIn_nil, ih, weight,
      hwritten, hweight]
  | set _ hname _ ih ihv =>
    obtain ⟨hwritten, hweight⟩ := breaks_word hname
    rw [glyphs, breaks_named "=" rfl, breaksIn_cons, breaksIn_cons, breaksIn_cons, breaksIn_nil, ih,
      ihv, weight, hwritten, hweight]
    omega
  | assign hname _ ih =>
    obtain ⟨hwritten, hweight⟩ := breaks_word hname
    rw [glyphs, breaks_named "=" rfl, breaksIn_cons, breaksIn_cons, breaksIn_nil, ih, weight,
      hwritten, hweight]
    rfl

theorem MadeStatement.breaks_eq (h : MadeStatement .any v) :
    breaks (written (glyphs v)) = v.weight breaks := by
  induction h with
  | expressionStatement he =>
    rw [glyphs, breaks_named ";" rfl, breaksIn_cons, breaksIn_nil, he.breaks_eq, weight]
    rfl
  | print he =>
    rw [glyphs, breaks_named "print" rfl, breaksIn_cons, breaksIn_nil, he.breaks_eq, weight]
    rfl
  | returnNothing => rfl
  | returnStatement he =>
    rw [glyphs, ifAny_of_ne he.ne_nil, breaks_named "return" rfl, breaksIn_cons, breaksIn_nil,
      he.breaks_eq, weight]
    rfl
  | uninitialized hname =>
    obtain ⟨hwritten, hweight⟩ := breaks_word hname
    rw [glyphs, breaks_named "var" rfl, breaksIn_cons, weight, hwritten, hweight]
    rfl
  | variableDeclaration hname he =>
    obtain ⟨hwritten, hweight⟩ := breaks_word hname
    rw [glyphs, ifAny_of_ne he.ne_nil, breaks_named "var" rfl, breaksIn_cons, breaksIn_cons,
      breaksIn_cons, breaksIn_nil, he.breaks_eq, weight, hwritten, hweight, written_chars,
      show breaks "=" = 0 from rfl]
    omega
  | block _ ih =>
    rw [glyphs, words_list, breaks_named "block" rfl, breaksIn_cons, breaksIn_nil, breaks_flatten,
      breaksIn_glyphs ih]
    rfl
  | ifStatement hc _ ih =>
    rw [glyphs, breaks_named _ rfl, breaksIn_cons, breaksIn_cons, hc.breaks_eq, ih]
    rfl
  | ifElseStatement hc _ he iht ihe =>
    rw [glyphs, ifHead_of_ne he.ne_nil, ifAny_of_ne he.ne_nil, breaks_named "if-else" rfl,
      breaksIn_cons, breaksIn_cons, breaksIn_cons, breaksIn_nil, hc.breaks_eq, iht, ihe, weight]
    omega
  | whileStatement hc _ ih =>
    rw [glyphs, breaks_named "while" rfl, breaksIn_cons, breaksIn_cons, breaksIn_nil, hc.breaks_eq,
      ih]
    rfl
  | functionDeclaration hname hparams _ ih =>
    have hparts := breaksIn_glyphs fun p hp =>
      (breaks_word (hparams p hp)).1.trans (breaks_word (hparams p hp)).2.symm
    obtain ⟨hwritten, hweight⟩ := breaks_word hname
    rw [glyphs, words_list, words_list, breaks_named "fun" rfl, breaksIn_cons, breaksIn_cons,
      breaksIn_nil, written_append, breaks_append, breaks_ofWords, breaks_flatten, hwritten, hparts,
      breaksIn_glyphs ih, weight, weight, weight, hweight]
    omega
  | classDeclaration hname hbase _ _ ih =>
    obtain ⟨hwritten, hweight⟩ := breaks_word hname
    rw [glyphs, words_list, breaks_group, written_append, breaks_append, breaksIn_append, hwritten,
      written_chars, show breaks "class" = 0 from rfl, breaks_base hbase, breaksIn_glyphs ih,
      weight, hweight, weight]
    omega

end Value

/-! ## Texts and their lines -/

/-- The lines of a text, of which the last one is what comes after the last line break. -/
def linesOf (s : String) : List String := (s.split '\n').toList.map String.Slice.copy

theorem linesOf_eq (s : String) : linesOf s = (s.toList.splitOn '\n').map String.ofList :=
  String.toList_split_char

theorem length_splitOn (cs : List Char) : (cs.splitOn '\n').length = cs.count '\n' + 1 := by
  induction cs with
  | nil => rfl
  | cons c cs ih =>
    rw [List.splitOn_cons_eq_if_modifyHead, List.count_cons]
    split
    · rw [List.length_cons, ih]
    · rw [List.length_modifyHead, ih]

/-- A line more than there are line breaks. -/
theorem length_linesOf (s : String) : (linesOf s).length = breaks s + 1 := by
  rw [linesOf_eq, List.length_map, length_splitOn]
  rfl

namespace Writer

theorem setOff_cons (message : String) (messages : List String) :
    setOff 0 (message :: messages) = message ++ "\n" ++ setOff 0 messages := by
  rw [setOff, List.map_cons, String.join_cons]
  exact congrArg (· ++ "\n" ++ setOff 0 messages) String.empty_append

theorem breaks_setOff (messages : List String) :
    breaks (setOff 0 messages) = messages.length + (messages.map breaks).sum := by
  induction messages with
  | nil => rfl
  | cons message messages ih =>
    rw [setOff_cons, breaks_append, breaks_append, ih, List.length_cons, List.map_cons,
      List.sum_cons, show breaks "\n" = 1 from rfl]
    omega

/-- Messages are the lines of what is written of them if there is no line break in them. -/
theorem linesOf_setOff {messages : List String} (h : ∀ m ∈ messages, '\n' ∉ m.toList) :
    linesOf (setOff 0 messages) = messages ++ [""] := by
  rw [linesOf_eq]
  induction messages with
  | nil => rfl
  | cons message messages ih =>
    rw [List.forall_mem_cons] at h
    have htext : (setOff 0 (message :: messages)).toList =
        message.toList ++ '\n' :: (setOff 0 messages).toList := by
      rw [setOff_cons, String.toList_append, String.toList_append, List.append_assoc]
      rfl
    rw [htext, List.splitOn_append_cons_self_of_not_mem h.1, List.map_cons, ih h.2,
      String.ofList_toList]
    rfl

/-- **Messages are the lines of what is written of them** just if none of them has a line
break in it. -/
theorem linesOf_setOff_iff {messages : List String} :
    linesOf (setOff 0 messages) = messages ++ [""] ↔ ∀ m ∈ messages, '\n' ∉ m.toList := by
  refine ⟨fun h => ?_, linesOf_setOff⟩
  have hlength := congrArg List.length h
  rw [length_linesOf, breaks_setOff, List.length_append, List.length_singleton] at hlength
  have hsum : (messages.map breaks).sum = 0 := by omega
  intro m hm
  exact breaks_eq_zero.mp (sum_map_eq_zero_iff.mp hsum m hm)

end Writer

/-! ## Dumps -/

/-- To have no string that goes over several lines. -/
def Lexeme.IsOnOneLine (l : Lexeme) : Prop := l.kind = .string → '\n' ∉ l.text.toList

theorem Lexeme.weight_breaks_eq_zero {l : Lexeme} (h : Found l.kind l.text.toList) :
    l.weight breaks = 0 ↔ l.IsOnOneLine := by
  rw [weight, IsOnOneLine]
  by_cases hk : l.kind = .string
  · rw [if_pos hk]
    rw [hk] at h
    obtain hspelled | ⟨hne, -⟩ | ⟨hne, -⟩ | ⟨-, body, -, htext⟩ := h
    · exact absurd hspelled (by simp [TokenKind.spelling?])
    · exact absurd hne (by decide)
    · exact absurd hne (by decide)
    · rw [htext, List.tail_cons, List.dropLast_concat, breaks_eq_zero, String.toList_ofList]
      simp [hk]
  · rw [if_neg hk]
    simp [hk]

namespace Dump

theorem exists_made {source : String} {statements : List Value}
    (h : Program.ofText source = .ok statements) : ∃ parsed, Parsed.ofText source = .ok parsed ∧
      parsed.tree.build Program.readLexeme = .ok (.list statements) ∧
      ∀ s ∈ statements, MadeStatement .any s := by
  obtain ⟨parsed, hparsed, v, hbuild, rfl⟩ := Program.ofText_eq_ok.mp h
  have hbears : ∀ l ∈ parsed.lexemes, l.Bears .any :=
    fun l hl => (Parsed.found hparsed l hl).bears
  rcases Parsed.comes hparsed hbears fun _ _ => trivial with
    ⟨_, hbuild', statements, rfl, hmade⟩ | ⟨_, hbuild', -⟩
  · obtain rfl := Except.ok.inj (hbuild.symm.trans hbuild')
    exact ⟨parsed, hparsed, hbuild, hmade⟩
  · exact nomatch hbuild.symm.trans hbuild'

/-- **The line breaks of forms are those of strings.** -/
theorem sum_breaks {statements : List Value} (h : ∀ s ∈ statements, MadeStatement .any s) :
    ((statements.map fun s => Form.written (Form.glyphs s)).map breaks).sum =
      weightOfAll breaks statements := by
  rw [← Form.breaksIn_glyphs fun s hs => (h s hs).breaks_eq, Form.breaksIn, List.map_map,
    List.map_map]
  rfl

/-- **The lines of a dump**, without a trace and without a title. Of each declaration a
form is written, and a line break after it. So the output has as many line breaks as
there are declarations, and besides those of the strings in the text; and its lines are
the forms just if no string goes over several lines. -/
theorem lines_iff {w w' : Writer} {source : String} {lines : List String}
    (hw : w.debugging = false) (h : ofText w false source = (w', .ok lines)) :
    ∃ parsed statements out, Parsed.ofText source = .ok parsed ∧
      Program.ofText source = .ok statements ∧ statements.mapM Value.form = .ok lines ∧
      w' = w.write out ∧
      breaks out = statements.length + (parsed.lexemes.map (Lexeme.weight breaks)).sum ∧
      (linesOf out = lines ++ [""] ↔ ∀ l ∈ parsed.lexemes, l.IsOnOneLine) ∧
      ((∀ line ∈ lines, '\n' ∉ line.toList) ↔ ∀ l ∈ parsed.lexemes, l.IsOnOneLine) := by
  rcases ofText_cases w false source with ⟨statements, lines', hprogram, hforms, hdump⟩ |
    ⟨_, _, -, -, hdump⟩
  · obtain ⟨rfl, hlines⟩ := Prod.mk.inj (h.symm.trans hdump)
    obtain rfl := Except.ok.inj hlines
    obtain ⟨parsed, hparsed, hbuild, hmade⟩ := exists_made hprogram
    have hmapM := Form.ofProgram_eq Terms.any_plain hmade
    have hlines : lines = statements.map fun s => Form.written (Form.glyphs s) := by
      rw [forms, hprogram] at hforms
      have hok := (congrArg (Except.mapError DumpError.fault) hmapM).symm.trans hforms
      exact (Except.ok.inj hok).symm
    have hsum : (lines.map breaks).sum = (parsed.lexemes.map (Lexeme.weight breaks)).sum := by
      rw [hlines, sum_breaks hmade, Program.weightOfAll_of_build hparsed hbuild]
    have hbroken : (∀ line ∈ lines, '\n' ∉ line.toList) ↔ ∀ l ∈ parsed.lexemes, l.IsOnOneLine :=
      calc (∀ line ∈ lines, '\n' ∉ line.toList)
        _ ↔ (lines.map breaks).sum = 0 := by
          rw [sum_map_eq_zero_iff]
          exact forall₂_congr fun _ _ => breaks_eq_zero.symm
        _ ↔ ∀ l ∈ parsed.lexemes, l.IsOnOneLine := by
          rw [hsum, sum_map_eq_zero_iff]
          exact forall₂_congr fun l hl => Lexeme.weight_breaks_eq_zero (Parsed.found hparsed l hl)
    refine ⟨parsed, statements, Writer.setOff 0 lines, hparsed, hprogram, ?_, ?_, ?_, ?_, hbroken⟩
    · rw [hlines]
      exact hmapM
    · rw [full_of_silent hw, shown_untitled]
    · rw [Writer.breaks_setOff, hsum, hlines, List.length_map]
    · rw [Writer.linesOf_setOff_iff, hbroken]
  · exact absurd (h.symm.trans hdump) (by simp)

/-- The form of a string that goes over two lines is on two lines, so the lines of the
dump are not its forms. -/
theorem lines_iff_string : ∃ w' out,
    ofText (.fresh 3 false) false "print \"a\nb\"; print c;" =
      (w', .ok ["(print a\nb)", "(print c)"]) ∧
    w' = (Writer.fresh 3 false).write out ∧ breaks out = 3 ∧
    linesOf out ≠ ["(print a\nb)", "(print c)"] ++ [""] := by
  have hforms : (ofText (.fresh 3 false) false "print \"a\nb\"; print c;").2.toOption =
      some ["(print a\nb)", "(print c)"] := by decide +kernel
  have hstatements : (Program.ofText "print \"a\nb\"; print c;").toOption.map List.length =
      some 2 := by decide +kernel
  have hstrings : (Parsed.ofText "print \"a\nb\"; print c;").toOption.map
      (fun parsed => (parsed.lexemes.map (Lexeme.weight breaks)).sum) = some 1 := by decide +kernel
  cases hdump : ofText (.fresh 3 false) false "print \"a\nb\"; print c;" with
  | mk w' result =>
    rw [hdump] at hforms
    cases result with
    | error e => exact nomatch hforms
    | ok lines =>
      obtain rfl := Option.some.inj hforms
      obtain ⟨parsed, statements, out, hparsed, hprogram, -, hw', hbreaks, -⟩ := lines_iff rfl hdump
      rw [hparsed] at hstrings
      rw [hprogram] at hstatements
      have hout : breaks out = 2 + 1 := by
        rw [hbreaks, ← Option.some.inj hstatements, ← Option.some.inj hstrings]
      refine ⟨w', out, rfl, hw', hout, fun heq => ?_⟩
      have hlength := congrArg List.length heq
      rw [length_linesOf, hout] at hlength
      exact absurd hlength (by decide)

end Dump

end LoxForms
