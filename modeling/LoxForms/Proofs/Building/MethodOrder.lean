import LoxForms.Proofs.Building.Methods
import Mathlib.Data.Set.List
/-!
# The order of methods

The rules have all methods of a class alike, but not all of them are found in the same
state. The first one is looked for behind the opening brace, where no word is reserved. A
later one is looked for before the block of the method before it is finished, and so in
the state in which any block ends. Elsewhere a declaration or an `else` can come after a
block, so the words that these begin with are reserved there. Only `or` and `and` are not.

So the methods of a class that is read can be put in another order if none of them gets
behind another one whose name is reserved there, and not otherwise:
`Program.ofText_methodOrder`. A `MethodPart` is a method as a text of its own, and a
`ClassReading` is a class whose methods are.
-/

namespace LoxForms

open Automaton Building

/-! ## What a class is called by -/

/-- Whether a method is called as a reserved word that is no connective. -/
def Value.hasReservedName : Value → Bool
  | .functionDeclaration (.token _ lexeme _ _) _ _ =>
    TokenKind.words.any fun k =>
      !TokenKind.connectives.contains k && k.spelling? == some lexeme.toList
  | _ => false

namespace Automaton

/-- Where a method can come first in its class, no word is reserved. -/
theorem unreserved_of_goto {q : Nat} (h : (goto? q .methods).isSome) :
    .identifier ∈ wanted q ∧ ∀ k ∈ TokenKind.words, k ∉ wanted q := by
  have all_unreserved : ∀ q < states.size, ((table.row q).gotos.lookup .methods).isSome →
      .identifier ∈ table.wanted q ∧ ∀ k ∈ TokenKind.words, k ∉ table.wanted q := by
    rw [← quickTable_eq]
    decide +kernel
  simp only [mem_table_wanted] at all_unreserved
  obtain ⟨r, hr⟩ := Option.isSome_iff_exists.mp h
  exact all_unreserved q (lt_size_of_step (a := .phrase .methods) hr) h

/-- After a block all words are reserved but the connectives. -/
theorem reserved_of_block {q : Nat} {p : Production} (h : complete? q = some p)
    (hp : p.phrase = .block) : .identifier ∈ wanted q ∧
      ∀ k ∈ TokenKind.words, k ∈ wanted q ↔ k ∉ TokenKind.connectives := by
  have all_reserved : ∀ q < states.size, (∃ p ∈ table.complete? q, p.phrase = .block) →
      .identifier ∈ table.wanted q ∧
        ∀ k ∈ TokenKind.words, k ∈ table.wanted q ↔ k ∉ TokenKind.connectives := by
    rw [← quickTable_eq]
    decide +kernel
  simp only [mem_table_wanted] at all_reserved
  exact all_reserved q (lt_size_of_complete h) ⟨p, h, hp⟩

end Automaton

/-! ## Methods as texts -/

/-- A text that is read as a method, wherever its name is not reserved. -/
structure MethodPart extends MethodReading where
  text : String
  cuts : ∀ q, (∀ l ∈ word.head?, ∀ k ∈ TokenKind.words, k ∈ wanted q →
    k.spelling? ≠ some l.text.toList) → Cuts q 0 text.toList (word.map Lexeme.bare) states

open Progress

variable {p q r : Progress} {here : Place} {Rs : List MethodReading} {s : String}
variable {ss more : List String} {w : List Lexeme} {ws : List (List Lexeme)} {qs : List Nat}

/-- A line that is scanned as a method is one elsewhere. -/
theorem MethodReading.exists_part (R : MethodReading) (hscans : p.Scans here 0 s.toList R.word q)
    (hvisits : p.Visits R.word R.states r) :
    ∃ M : MethodPart, M.toMethodReading = R ∧ M.text = s := by
  obtain ⟨l, rest, _, _, hword, hl, -⟩ := R.exists_name
  obtain ⟨states, hreads, hcuts⟩ := hscans.cuts
  have hid : .identifier ∈ wanted (Stack.top p.stack) := by
    rw [hword] at hreads
    cases hreads with
    | next hfeed _ => exact hl ▸ mem_wanted_of_feed hfeed
  obtain rfl := hreads.states_eq hvisits
  refine ⟨⟨R, s, fun q hfree => hcuts.transfer_name fun w hw => ?_⟩, rfl, rfl⟩
  rw [hword, List.map_cons, List.head?_cons, Option.mem_some_iff] at hw
  subst hw
  exact ⟨hl, hid, hfree l (by rw [hword, List.head?_cons, Option.mem_some_iff])⟩

/-- **Lines that are scanned as methods** one after the other, as methods elsewhere. -/
theorem MethodReading.exists_parts (hlength : ss.length = Rs.length)
    (hscans : LineScans p (ss ++ more) (Rs.map MethodReading.word ++ ws) q)
    (hvisits : p.Visits (Rs.flatMap MethodReading.word ++ w)
      (Rs.flatMap MethodReading.states ++ qs) r) :
    ∃ Ms : List MethodPart, Ms.map MethodPart.toMethodReading = Rs ∧
      Ms.map MethodPart.text = ss := by
  induction Rs generalizing p ss with
  | nil =>
    obtain rfl := List.length_eq_zero_iff.mp hlength
    exact ⟨[], rfl, rfl⟩
  | cons R Rs ih =>
    obtain ⟨s, ss, rfl⟩ := List.exists_cons_of_length_eq_add_one hlength
    cases hscans with
    | cons hline hscans =>
      rw [List.flatMap_cons, List.flatMap_cons, List.append_assoc, List.append_assoc] at hvisits
      obtain ⟨qs₁, qs₂, p', hqs, hfirst, hrest⟩ := hvisits.of_append
      obtain ⟨rfl, rfl⟩ := List.append_inj hqs (R.length_states.trans hfirst.length_eq.symm)
      -- the line leads to where its lexemes do
      obtain rfl := Except.ok.inj (hline.feedAll.symm.trans hfirst.feedAll)
      obtain ⟨M, rfl, rfl⟩ := R.exists_part hline hfirst
      obtain ⟨Ms, rfl, rfl⟩ := ih (Nat.succ.inj hlength) hscans hrest
      exact ⟨M :: Ms, rfl, rfl⟩

namespace MethodPart

variable {M : MethodPart} {Ms : List MethodPart}

/-- What is known of a method as a text. -/
def described (M : MethodPart) : String × Value := (M.text, M.value)

/-- What is read as the methods. -/
abbrev readings (Ms : List MethodPart) : List MethodReading := Ms.map toMethodReading

theorem map_fst_described (Ms : List MethodPart) :
    (Ms.map described).map Prod.fst = Ms.map text := by
  rw [List.map_map]
  rfl

theorem map_value_readings (Ms : List MethodPart) :
    (readings Ms).map MethodReading.value = (Ms.map described).map Prod.snd := by
  rw [readings, List.map_map, List.map_map]
  rfl

theorem hasReservedName_eq_false_iff : M.value.hasReservedName = false ↔
    ∀ l ∈ M.word.head?, ∀ k ∈ TokenKind.words, k ∉ TokenKind.connectives →
      k.spelling? ≠ some l.text.toList := by
  obtain ⟨l, rest, params, body, hword, -, hvalue⟩ := M.exists_name
  rw [hword, hvalue, Value.hasReservedName]
  simp [List.any_eq_false]

/-- A text with any name can come first in a class. -/
theorem cuts_first (M : MethodPart) {q : Nat} (hq : (goto? q .methods).isSome) :
    Cuts q 0 M.text.toList (M.word.map Lexeme.bare) M.states :=
  M.cuts q fun _ _ k hk hw => absurd hw ((unreserved_of_goto hq).2 k hk)

/-- And another one can come after a block. -/
theorem cuts_after (hM : M.value.hasReservedName = false) {q : Nat} {p : Production}
    (h : complete? q = some p) (hp : p.phrase = .block) :
    Cuts q 0 M.text.toList (M.word.map Lexeme.bare) M.states :=
  M.cuts q fun l hl k hk hw => hasReservedName_eq_false_iff.mp hM l hl k hk
    (((reserved_of_block h hp).2 k hk).mp hw)

/-- **A reserved name is read as a reserved word** after a block. -/
theorem feeds_reserved (hM : M.value.hasReservedName) : ∃ k ∈ TokenKind.words,
    k ∉ TokenKind.connectives ∧ ∀ {p r : Progress} {here : Place} {ls : List Lexeme}
      {b : Production} {more : List String}, complete? (Stack.top p.stack) = some b →
      b.phrase = .block → more ≠ [] →
      p.Scans here 0 ("\n".intercalate (M.text :: more)).toList ls r →
      ∃ l p', l.kind = k ∧ p.feed l = .ok p' := by
  obtain ⟨l, rest, params, body, hword, hl, hvalue⟩ := M.exists_name
  rw [hvalue, Value.hasReservedName, List.any_eq_true] at hM
  obtain ⟨k, hk, hreserved⟩ := hM
  rw [Bool.and_eq_true, Bool.not_eq_true', ← Bool.not_eq_true, List.contains_iff_mem,
    beq_iff_eq] at hreserved
  obtain ⟨hc, hspelling⟩ := hreserved
  refine ⟨k, hk, hc, fun htop hb hmore hscans => ?_⟩
  obtain ⟨q, hq⟩ := exists_goto .methods
  obtain ⟨hid, hwords⟩ := reserved_of_block htop hb
  have hcuts := M.cuts_first hq
  rw [hword, List.map_cons, Lexeme.bare, hl] at hcuts
  obtain ⟨s, more, rfl⟩ := List.exists_cons_of_ne_nil hmore
  rw [String.intercalate_cons_cons, String.toList_append, String.toList_append,
    List.append_assoc] at hscans
  exact hcuts.feeds_word (unreserved_of_goto hq).1 hid hk ((hwords k hk).mpr hc) hspelling hscans

theorem pieces_after (hMs : ∀ M ∈ Ms, M.value.hasReservedName = false) {q : Nat} {p : Production}
    (h : complete? q = some p) (hp : p.phrase = .block) :
    Pieces q (Ms.map text) (((readings Ms).flatMap MethodReading.word).map Lexeme.bare)
      ((readings Ms).flatMap MethodReading.states) := by
  induction Ms generalizing q p with
  | nil => exact .nil
  | cons M Ms ih =>
    obtain ⟨hM, hMs⟩ := List.forall_mem_cons.mp hMs
    obtain ⟨ps, r, p', hstates, hr, hp'⟩ := M.exists_last
    rw [List.map_cons, readings, List.map_cons, List.flatMap_cons, List.flatMap_cons,
      List.map_append]
    refine .cons (cuts_after hM h hp) ?_
    rw [hstates, List.getLastD_concat]
    exact ih hMs hr hp'

/-- **Methods are cut line by line** if no name but that of the first one is reserved. -/
theorem pieces (hMs : ∀ M ∈ Ms.tail, M.value.hasReservedName = false) {q : Nat}
    (hq : (goto? q .methods).isSome) :
    Pieces q (Ms.map text) (((readings Ms).flatMap MethodReading.word).map Lexeme.bare)
      ((readings Ms).flatMap MethodReading.states) := by
  cases Ms with
  | nil => exact .nil
  | cons M Ms =>
    obtain ⟨ps, r, p, hstates, hr, hp⟩ := M.exists_last
    rw [List.map_cons, readings, List.map_cons, List.flatMap_cons, List.flatMap_cons,
      List.map_append]
    refine .cons (M.cuts_first hq) ?_
    rw [hstates, List.getLastD_concat]
    exact pieces_after hMs hr hp

end MethodPart

/-! ## Classes as texts -/

/-- The lines of a class: what it begins with, a text for each method, and the brace. -/
def classLines (name : String) (base : Option String) (methods : List String) : List String :=
  " ".intercalate ((classWords name base).map Prod.snd) :: (methods ++ ["\x7d"])

/-- The text of a class, with its methods on lines of their own. -/
def classText (name : String) (base : Option String) (methods : List String) : String :=
  "\n".intercalate (classLines name base methods)

/-- Whether lexemes are read as a method, which stands for a value. -/
def ReadsMethod (v : Value) (w : List Lexeme) : Prop :=
  ∃ ts, Reads .rightBrace [.phrase .function] w ts ∧ Tree.buildAll Program.readLexeme ts = .ok [v]

/-- A text that is read as a class, in such a way that each of its lines between the first
and the last one is read as a method. -/
structure ClassReading (name : String) (base : Option String)
    (methods : List (String × Value)) where
  parsed : Parsed
  parsed_eq : Parsed.ofText (classText name base (methods.map Prod.fst)) = .ok parsed
  /-- The lexemes of the first line. -/
  head : List Lexeme
  /-- The lexemes of the lines with the methods. -/
  words : List (List Lexeme)
  close : Lexeme
  lexemes_eq : parsed.lexemes = (head :: (words ++ [[close]])).flatten
  lined : Lined 0 (classLines name base (methods.map Prod.fst)) (head :: (words ++ [[close]]))
  head_eq : head.map Lexeme.bare = classWords name base
  close_eq : close.kind = .rightBrace
  reads : List.Forall₂ (fun m w => ReadsMethod m.2 w) methods words

namespace ClassHead

variable {H : ClassHead} {head : String} {Ms : List MethodPart}

theorem pieces (hcuts : Cuts 0 0 head.toList (H.word.map Lexeme.bare) H.states)
    (hMs : ∀ M ∈ Ms.tail, M.value.hasReservedName = false) :
    Pieces 0 (head :: Ms.map MethodPart.text)
      ((H.word ++ (MethodPart.readings Ms).flatMap MethodReading.word).map Lexeme.bare)
      (H.states ++ (MethodPart.readings Ms).flatMap MethodReading.states) := by
  obtain ⟨ps, a, hstates, -, hgoto⟩ := H.exists_last
  rw [List.map_append]
  refine .cons hcuts ?_
  rw [hstates, List.getLastD_concat]
  exact MethodPart.pieces hMs hgoto

/-- **Methods make a class** if no name but that of the first one is reserved. -/
theorem ofText_of_tail (hcuts : Cuts 0 0 head.toList (H.word.map Lexeme.bare) H.states)
    (hne : Ms ≠ []) (hMs : ∀ M ∈ Ms.tail, M.value.hasReservedName = false) :
    ∃ program, Program.ofText ("\n".intercalate (head :: (Ms.map MethodPart.text ++ ["\x7d"]))) =
        .ok program ∧
      program.map Value.unplaced = [(H.value (MethodPart.readings Ms)).unplaced] := by
  let close : Lexeme := ⟨.rightBrace, "\x7d", .start, .start⟩
  have hclose : close.kind = .rightBrace := rfl
  obtain ⟨ts, r, hlands, hbuild⟩ := H.exists_lands (mt List.map_eq_nil_iff.mp hne) hclose
  refine Program.ofText_of_lands hlands hbuild ?_
  rw [← List.append_assoc, ← List.append_assoc, List.map_append, ← List.cons_append]
  exact (pieces hcuts hMs).append (.cons (.spelled rfl _ r) .nil)

/-- **No method but the first one has a reserved name**, if the class is read. -/
theorem tail_of_ofText (hcuts : Cuts 0 0 head.toList (H.word.map Lexeme.bare) H.states)
    {parsed : Parsed}
    (h : Parsed.ofText ("\n".intercalate (head :: (Ms.map MethodPart.text ++ ["\x7d"]))) =
      .ok parsed) : ∀ M ∈ Ms.tail, M.value.hasReservedName = false := by
  cases Ms with
  | nil => exact List.forall_mem_nil _
  | cons M Ms =>
    cases hfind : Ms.find? fun M => M.value.hasReservedName with
    | none => simpa using hfind
    | some B =>
      obtain ⟨hB, before, after, rfl, hbefore⟩ := List.find?_eq_some_iff_append.mp hfind
      have hbefore : ∀ M ∈ (M :: before).tail, M.value.hasReservedName = false := by
        simpa using hbefore
      have hne : MethodPart.readings (M :: before) ≠ [] := List.cons_ne_nil _ _
      have hlines : head :: ((M :: (before ++ B :: after)).map MethodPart.text ++ ["\x7d"]) =
          (head :: (M :: before).map MethodPart.text) ++
            B.text :: (after.map MethodPart.text ++ ["\x7d"]) := by simp
      -- the methods before the first such name are scanned, and then it is read as what it is
      obtain ⟨k, hk, hc, hfeeds⟩ := MethodPart.feeds_reserved hB
      obtain ⟨q, hvisits, hpath, hrefuses⟩ := H.refuses hne hk hc
      obtain ⟨ls, q', hscans, -, hlike⟩ :=
        scans_of_cuts (pieces hcuts hbefore).cuts .start rfl rfl hvisits .nil (.refl .start)
      obtain ⟨r, hall, -⟩ := Parsed.scans h
      rw [hlines] at hall
      obtain ⟨more, there, hmore⟩ := hscans.resume_lines (List.cons_ne_nil _ _) hall
      obtain ⟨ps, z, p, hstates, hz, hp⟩ := MethodReading.exists_last_of_all hne
      have htop : Stack.top q'.stack = z := by
        rw [← hlike.stack.top_eq, hvisits.top_eq, hstates, ← List.append_assoc,
          List.getLastD_concat]
      obtain ⟨l, p', hl, hfeed⟩ := hfeeds (htop ▸ hz) hp (by simp) hmore
      obtain ⟨p', hfeed, -⟩ := hlike.symm.feed (hlike.stack.isPath hpath) rfl hfeed
      exact absurd hfeed (hrefuses l p' hl)

end ClassHead

namespace ClassReading

variable {name : String} {base : Option String} {methods : List (String × Value)}

theorem exists_readings {words : List (List Lexeme)}
    (h : List.Forall₂ (fun m w => ReadsMethod m.2 w) methods words) :
    ∃ Rs : List MethodReading, Rs.map MethodReading.word = words ∧
      Rs.map MethodReading.value = methods.map Prod.snd := by
  induction h with
  | nil => exact ⟨[], rfl, rfl⟩
  | cons hm _ ih =>
    obtain ⟨ts, hreads, hbuild⟩ := hm
    obtain ⟨R, rfl, hvalue⟩ := exists_methodReading hreads hbuild
    obtain ⟨Rs, rfl, hvalues⟩ := ih
    exact ⟨R :: Rs, rfl, by rw [List.map_cons, List.map_cons, hvalue, hvalues]⟩

/-- **A class that is read is made of what can be read elsewhere**, and stands for its
methods. -/
theorem exists_parts (c : ClassReading name base methods) (hne : methods ≠ []) :
    ∃ (H : ClassHead) (Ms : List MethodPart), Ms.map MethodPart.described = methods ∧
      Cuts 0 0 (" ".intercalate ((classWords name base).map Prod.snd)).toList
        (H.word.map Lexeme.bare) H.states ∧
      Program.ofText (classText name base (methods.map Prod.fst)) =
        .ok [H.value (MethodPart.readings Ms)] := by
  obtain ⟨H, hhead⟩ := exists_classHead c.head_eq
  obtain ⟨Rs, hwords, hvalues⟩ := exists_readings c.reads
  have hlength : Rs.length = methods.length := by
    rw [← List.length_map MethodReading.value, hvalues, List.length_map]
  have hRs : Rs ≠ [] := by
    rwa [← List.length_pos_iff, hlength, List.length_pos_iff]
  obtain ⟨ts, r, hlands, hbuild⟩ := H.exists_lands hRs c.close_eq
  have hlexemes : c.parsed.lexemes =
      H.word ++ (Rs.flatMap MethodReading.word ++ [c.close]) := by
    rw [c.lexemes_eq, ← hhead, ← hwords, List.flatten_cons, List.flatten_append,
      List.flatten_singleton, List.flatMap_def]
  have hprogram := Program.ofText_of_reads c.parsed_eq (hlexemes ▸ hlands.reads) hbuild
  -- the lines are scanned, in the states that the productions lead to
  obtain ⟨children, rfl⟩ := hlands.reads.exists_program
  obtain ⟨q, hvisits, -⟩ := Progress.exists_visits hlands
  obtain ⟨q', hscans, -⟩ := Parsed.scans c.parsed_eq
  rw [c.lexemes_eq] at hscans
  have hlines := hscans.lines c.lined rfl (List.cons_ne_nil _ _)
  rw [← hwords, ← hhead] at hlines
  cases hlines with
  | cons hfirst hrest =>
    obtain ⟨qs₁, qs₂, p', hqs, hvisits, hmore⟩ := hvisits.of_append
    obtain ⟨rfl, rfl⟩ := List.append_inj hqs (H.lands.length_eq.trans hvisits.length_eq.symm)
    obtain rfl := Except.ok.inj (hfirst.feedAll.symm.trans hvisits.feedAll)
    obtain ⟨states, hreads, hcuts⟩ := hfirst.cuts
    obtain rfl := hreads.states_eq hvisits
    obtain ⟨Ms, rfl, htexts⟩ :=
      MethodReading.exists_parts (by rw [List.length_map, hlength]) hrest hmore
    refine ⟨H, Ms, ?_, hcuts, hprogram⟩
    rw [List.zip_of_prod htexts.symm hvalues.symm, List.map_map, List.zip_map']
    rfl

end ClassReading

/-- **The order of methods in a class matters only for reserved names.** Take a class that
is read, with each of its methods on lines of its own, and put the methods in another
order. The text that comes out is read exactly if none of them is called as a reserved
word but the first one, or the word is an `or` or an `and`. And then it stands for the
same class with the methods in their new order, up to lines. -/
theorem Program.ofText_methodOrder {name : String} {base : Option String}
    {methods : List (String × Value)} (c : ClassReading name base methods) (hne : methods ≠ []) :
    ∃ n b, ofText (classText name base (methods.map Prod.fst)) =
        .ok [.classDeclaration n b (.list (methods.map Prod.snd))] ∧
      ∀ methods' : List (String × Value), methods'.Perm methods →
        ((∃ parsed, Parsed.ofText (classText name base (methods'.map Prod.fst)) = .ok parsed) ↔
          ∀ m ∈ methods'.tail, m.2.hasReservedName = false) ∧
        ((∀ m ∈ methods'.tail, m.2.hasReservedName = false) →
          ∃ program, ofText (classText name base (methods'.map Prod.fst)) = .ok program ∧
            program.map Value.unplaced =
              [(Value.classDeclaration n b (.list (methods'.map Prod.snd))).unplaced]) := by
  obtain ⟨H, Ms, rfl, hcuts, hprogram⟩ := c.exists_parts hne
  refine ⟨H.name, H.base, ?_, fun methods' hperm => ?_⟩
  · rw [hprogram, ClassHead.value, MethodPart.map_value_readings]
  -- the methods in their new order are the same parts
  · have hparts : methods' ∈ Set.range (List.map MethodPart.described) := by
      rw [Set.range_list_map]
      intro m hm
      obtain ⟨M, -, hM⟩ := List.mem_map.mp (hperm.mem_iff.mp hm)
      exact ⟨M, hM⟩
    obtain ⟨Ms', rfl⟩ := hparts
    have hne' : Ms' ≠ [] := by
      rintro rfl
      exact hne hperm.nil_eq.symm
    have htail : (∀ m ∈ (Ms'.map MethodPart.described).tail, m.2.hasReservedName = false) ↔
        ∀ M ∈ Ms'.tail, M.value.hasReservedName = false := by
      rw [← List.map_tail, List.forall_mem_map]
      rfl
    rw [htail, MethodPart.map_fst_described, ← MethodPart.map_value_readings]
    have hread : (∀ M ∈ Ms'.tail, M.value.hasReservedName = false) →
        ∃ program, ofText (classText name base (Ms'.map MethodPart.text)) = .ok program ∧
          program.map Value.unplaced = [(H.value (MethodPart.readings Ms')).unplaced] :=
      ClassHead.ofText_of_tail hcuts hne'
    refine ⟨⟨fun ⟨parsed, hparsed⟩ => ClassHead.tail_of_ofText hcuts hparsed, fun hMs => ?_⟩, hread⟩
    obtain ⟨program, hprogram, -⟩ := hread hMs
    obtain ⟨parsed, hparsed, -⟩ := ofText_eq_ok.mp hprogram
    exact ⟨parsed, hparsed⟩

/-- The words of a method without parameters that does nothing. -/
def idleWords (name : String) : List (TokenKind × String) :=
  [(.identifier, name), (.leftParen, "("), (.rightParen, ")"), (.leftBrace, "\x7b"),
    (.rightBrace, "\x7d")]

/-- And what it stands for. -/
def Value.idle (name : String) (line : Int) : Value :=
  .functionDeclaration (.token .identifier name .nil line) (.list []) (.list [])

theorem readsMethod_idle (name : String) (here : Place) :
    ReadsMethod (.idle name here.line) (Lexeme.placed here (idleWords name)) := by
  have hblock : Grammar.named .block .block [.drop .leftBrace, .drop .rightBrace] ∈
      Grammar.productions := Grammar.mem_of_statementRules (by simp [Grammar.statementRules])
  have hfunction : Grammar.named .function .function (Grammar.functionSlots .absent) ∈
      Grammar.productions :=
    Grammar.mem_of_declarationRules (by simp [Grammar.declarationRules, Grammar.functionSlots])
  have hnext : TokenKind.rightParen ≠ .elseWord := by decide
  exact ⟨_, .production hfunction (.keep rfl (.drop rfl (.absent hnext (.drop rfl
    (.production hblock (.drop rfl (.drop rfl .done))))))), rfl⟩

/-- With a method that is called `print` first, the class is read, but not with it last. -/
theorem Program.ofText_methodOrder_print :
    (∃ n b, ofText "class A \x7b\nprint ( ) \x7b \x7d\na ( ) \x7b \x7d\n\x7d" =
      .ok [.classDeclaration n b (.list [.idle "print" 2, .idle "a" 3])]) ∧
    ¬∃ parsed, Parsed.ofText "class A \x7b\na ( ) \x7b \x7d\nprint ( ) \x7b \x7d\n\x7d" =
      .ok parsed := by
  let methods := [("print ( ) \x7b \x7d", Value.idle "print" 2),
    ("a ( ) \x7b \x7d", Value.idle "a" 3)]
  let head := Lexeme.placed .start (classWords "A" none)
  let words := [Lexeme.placed ⟨10, 2, 1⟩ (idleWords "print"),
    Lexeme.placed ⟨24, 3, 1⟩ (idleWords "a")]
  let close : Lexeme := ⟨.rightBrace, "\x7d", ⟨34, 4, 1⟩, ⟨35, 4, 2⟩⟩
  have hread : (Parsed.ofText (classText "A" none (methods.map Prod.fst))).toOption.map
      Parsed.lexemes = some (head :: (words ++ [[close]])).flatten := by decide +kernel
  have hclass : Nonempty (ClassReading "A" none methods) := by
    cases hparsed : Parsed.ofText (classText "A" none (methods.map Prod.fst)) with
    | error e =>
      rw [hparsed] at hread
      exact nomatch hread
    | ok parsed =>
      rw [hparsed] at hread
      exact ⟨{
        parsed, head, words, close
        parsed_eq := hparsed
        lexemes_eq := Option.some.inj hread
        lined := .cons (by decide +kernel) (.cons (by decide +kernel) (.cons (by decide +kernel)
          (.cons (by decide +kernel) .nil)))
        head_eq := Lexeme.map_bare_placed _ _
        close_eq := rfl
        reads := .cons (readsMethod_idle "print" _) (.cons (readsMethod_idle "a" _) .nil) }⟩
  obtain ⟨c⟩ := hclass
  obtain ⟨n, b, htext, horder⟩ := ofText_methodOrder c (List.cons_ne_nil _ _)
  obtain ⟨hparses, -⟩ := horder methods.reverse (List.reverse_perm methods)
  refine ⟨⟨n, b, htext⟩, fun h => ?_⟩
  exact absurd (hparses.mp h ("print ( ) \x7b \x7d", .idle "print" 2) (by simp [methods]))
    (by decide)

end LoxForms
