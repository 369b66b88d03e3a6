import LoxForms.Proofs.Parsing.Layout
import LoxForms.Proofs.Parsing.Located
import LoxForms.Proofs.Parsing.Scanning
import Mathlib.Data.List.TakeWhile
/-!
# Lexemes tile their text

The lexemes of a text are pieces of it one after the other, and nothing but blanks and
comments stands before, between and after them (`Tiles`). And every place that a run
comes to is a true one: it counts the characters and the lines before it, and the
characters since the last of these lines (`Place.Marks`). That also holds of the token
or the character of an error, for which nothing has to be known of the rest of the text.

A comment is passed over without the end of its line, which is a blank by itself. So
there is a moment when what has been passed over is no whole gap yet (`Passed`).
-/

namespace LoxForms

/-! ## Gaps, piece by piece -/

theorem IsGap.append {g g' : List Char} (h : IsGap g) (h' : IsGap g') : IsGap (g ++ g') := by
  induction h with
  | nil => exact h'
  | blank hc _ ih => exact .blank hc ih
  | comment hbody _ ih =>
    have hcomment := IsGap.comment hbody ih
    simpa using hcomment

/-- What has been passed over between two lexemes: a gap, or a gap and a comment, where
the text ends or goes on with the next line. -/
inductive Passed : List Char → List Char → Prop
  | gap {g rest : List Char} : IsGap g → Passed g rest
  | comment {g body rest : List Char} :
      IsGap g → '\n' ∉ body → (∀ c ∈ rest.head?, c = '\n') → Passed (g ++ '/' :: '/' :: body) rest

namespace Passed

variable {g s : List Char} {c : Char} {n : Nat}

/-- At the end of a text. -/
theorem isLastGap (h : Passed g []) : IsLastGap g := by
  cases h with
  | gap hg => exact .gap hg
  | comment hg hbody _ => exact .comment hg hbody

/-- At the front of a lexeme. -/
theorem isGap (h : Passed g (c :: s)) (hgap : Lexeme.gap? (c :: s) = none) : IsGap g := by
  cases h with
  | gap hg => exact hg
  | comment _ _ hnext =>
    obtain rfl := hnext c rfl
    exact nomatch hgap

theorem blank (h : Passed g (c :: s)) (hc : Lexeme.isBlank c) : Passed (g ++ [c]) s := by
  cases h with
  | gap hg => exact .gap (hg.append (.blank hc .nil))
  | @comment g body _ hg hbody hnext =>
    obtain rfl := hnext c rfl
    have hline := hg.append (.comment hbody .nil)
    exact .gap (by simpa using hline)

/-- **Whatever is passed over goes on the gap.** -/
theorem append (h : Passed g s) (hgap : Lexeme.gap? s = some n) :
    Passed (g ++ s.take n) (s.drop n) := by
  unfold Lexeme.gap? at hgap
  split at hgap
  · rename_i rest
    obtain rfl := Option.some.inj hgap
    have hg : IsGap g := by
      cases h with
      | gap hg => exact hg
      | comment _ _ hnext => exact absurd (hnext '/' rfl) (by decide)
    have htake : rest.take (rest.takeWhile (· != '\n')).length = rest.takeWhile (· != '\n') :=
      (List.prefix_iff_eq_take.mp (List.takeWhile_prefix _)).symm
    have hdrop : rest.drop (rest.takeWhile (· != '\n')).length = rest.dropWhile (· != '\n') := by
      have hcut := List.take_append_drop (rest.takeWhile (· != '\n')).length rest
      rw [htake] at hcut
      exact List.append_cancel_left (hcut.trans List.takeWhile_append_dropWhile.symm)
    have hbody : '\n' ∉ rest.takeWhile (· != '\n') := by
      intro hmem
      exact absurd (List.mem_takeWhile_imp hmem) (by simp)
    have hnext : ∀ c ∈ (rest.dropWhile (· != '\n')).head?, c = '\n' := by
      intro c hc
      have hstop := List.head?_dropWhile_not (· != '\n') rest
      rw [Option.mem_def.mp hc] at hstop
      simpa using hstop
    rw [Nat.add_comm 2, List.take_succ_cons, List.take_succ_cons, List.drop_succ_cons,
      List.drop_succ_cons, htake, hdrop]
    exact .comment hg hbody hnext
  · rename_i c rest _
    split at hgap
    · rename_i hc
      obtain rfl := Option.some.inj hgap
      exact h.blank hc
    · exact nomatch hgap
  · exact nomatch hgap

end Passed

/-! ## Places -/

/-- **A true place in a text**: its line is one more than the number of line ends
before it; and its column is one more than the number of characters since the last of
these, or since the beginning of the text. -/
structure Place.Marks (text : List Char) (p : Place) : Prop where
  offset_le : p.offset ≤ text.length
  line : p.line = 1 + (text.take p.offset).count '\n'
  column : ∃ above row, text.take p.offset = above ++ row ∧
    (above = [] ∨ above.getLast? = some '\n') ∧ '\n' ∉ row ∧
    p.column = p.offset - above.length + 1

namespace Place

variable {text pre post : List Char}

/-- The place after some characters is so far down in the last line. -/
theorem exists_column (pre : List Char) : ∃ above row, pre = above ++ row ∧
    (above = [] ∨ above.getLast? = some '\n') ∧ '\n' ∉ row ∧
    (start.afterAll pre).column = row.length + 1 := by
  induction pre using List.reverseRecOn with
  | nil => exact ⟨[], [], rfl, .inl rfl, List.not_mem_nil, rfl⟩
  | append_singleton pre c ih =>
    obtain ⟨above, row, hpre, habove, hrow, hcolumn⟩ := ih
    have hafter : start.afterAll (pre ++ [c]) = (start.afterAll pre).after c := afterAll_append ..
    by_cases hc : c = '\n'
    · refine ⟨pre ++ [c], [], (List.append_nil _).symm, .inr ?_, List.not_mem_nil, ?_⟩
      · rw [List.getLast?_concat, hc]
      · rw [hafter, after, if_pos hc]
        rfl
    · refine ⟨above, row ++ [c], by rw [hpre, List.append_assoc], habove, ?_, ?_⟩
      · simpa using ⟨hrow, Ne.symm hc⟩
      · rw [hafter, after, if_neg hc, List.length_append, List.length_singleton, ← hcolumn]

/-- **The place after the first characters of a text is a true one.** -/
theorem marks_afterAll (pre post : List Char) : (start.afterAll pre).Marks (pre ++ post) := by
  have hoffset : (start.afterAll pre).offset = pre.length := by
    rw [offset_afterAll, start, Nat.zero_add]
  have htake : (pre ++ post).take (start.afterAll pre).offset = pre := by
    rw [hoffset, List.take_left]
  obtain ⟨above, row, hpre, habove, hrow, hcolumn⟩ := exists_column pre
  refine ⟨?_, ?_, above, row, htake.trans hpre, habove, hrow, ?_⟩
  · rw [hoffset, List.length_append]
    omega
  · rw [htake, line_afterAll]
    rfl
  · rw [hcolumn, hoffset, hpre, List.length_append]
    omega

end Place

/-- A piece of a text, with true places. -/
structure Lexeme.PieceOf (text : List Char) (l : Lexeme) : Prop where
  first : l.first.Marks text
  past : l.past.Marks text
  piece : text.extract l.first.offset l.past.offset = l.text.toList

/-- What an error is about is where it is said to be, unless it is the end of the text;
and so is what has been read before. -/
def SyntaxError.Marked (text : List Char) : SyntaxError → Prop
  | .unexpectedToken _ token _ read =>
    (token.kind ≠ .endOfText → token.PieceOf text) ∧ ∀ l ∈ read, l.PieceOf text
  | .unexpectedCharacter c place _ read =>
    (place.Marks text ∧ text[place.offset]? = some c) ∧ ∀ l ∈ read, l.PieceOf text

/-- The same for what comes of a text. -/
def Parsed.Marked (text : List Char) : Except SyntaxError Parsed → Prop
  | .ok parsed => ∀ l ∈ parsed.lexemes, l.PieceOf text
  | .error e => e.Marked text

namespace Lexeme

variable {text pre s t : List Char} {k : TokenKind}

/-- What is found at a place of a text is a piece of it. -/
theorem pieceOf_of_prefix (htext : text = pre ++ s) (ht : t <+: s) :
    PieceOf text ⟨k, .ofList t, Place.start.afterAll pre, (Place.start.afterAll pre).afterAll t⟩ := by
  obtain ⟨rest, rfl⟩ := ht
  subst htext
  have hoffset : (Place.start.afterAll pre).offset = pre.length := by
    rw [Place.offset_afterAll, Place.start, Nat.zero_add]
  refine ⟨Place.marks_afterAll pre _, ?_, ?_⟩
  · rw [← Place.afterAll_append, ← List.append_assoc]
    exact Place.marks_afterAll _ _
  · show (pre ++ (t ++ rest)).extract (Place.start.afterAll pre).offset
      ((Place.start.afterAll pre).afterAll t).offset = (String.ofList t).toList
    rw [Place.offset_afterAll _ t, hoffset, String.toList_ofList]
    simp [List.extract]

end Lexeme

namespace Progress

variable {text pre rest : List Char} {p : Progress} {c : Char}

theorem marked_finish (hread : ∀ l ∈ p.read, l.PieceOf text) : Parsed.Marked text p.finish := by
  have hall : ∀ l ∈ p.read.reverse, l.PieceOf text := fun l hl => hread l (List.mem_reverse.mp hl)
  cases hfinish : p.finish with
  | ok parsed =>
    obtain ⟨stack, -, rfl⟩ := settle_of_finish hfinish
    exact hall
  | error e =>
    obtain ⟨expected, rfl⟩ := eq_unexpected_of_finish hfinish
    exact ⟨fun hne => absurd (kind_endOfText _) hne, hall⟩

theorem marked_noToken (htext : text = pre ++ c :: rest) (hread : ∀ l ∈ p.read, l.PieceOf text) :
    (p.noToken (Place.start.afterAll pre) c rest).Marked text := by
  have hall : ∀ l ∈ p.read.reverse, l.PieceOf text := fun l hl => hread l (List.mem_reverse.mp hl)
  unfold noToken
  split
  · rename_i k t htoken
    exact ⟨fun _ => Lexeme.pieceOf_of_prefix htext (Lexeme.token?_front htoken).2, hall⟩
  · subst htext
    refine ⟨⟨Place.marks_afterAll pre _, ?_⟩, hall⟩
    rw [Place.offset_afterAll, Place.start, Nat.zero_add]
    simp

/-- **A run only comes to true places**, whatever comes of it. -/
theorem marked_run (cs : List Char) : ∀ (p : Progress) (pre : List Char) (skip : Nat),
    text = pre ++ cs → (∀ l ∈ p.read, l.PieceOf text) →
      Parsed.Marked text (p.run (Place.start.afterAll pre) skip cs) := by
  induction cs with
  | nil =>
    intro p pre skip _ hread
    rw [run_nil]
    exact marked_finish hread
  | cons c rest ih =>
    intro p pre skip htext hread
    have hnext : (Place.start.afterAll pre).after c = Place.start.afterAll (pre ++ [c]) :=
      (Place.afterAll_append Place.start pre [c]).symm
    have htext' : text = (pre ++ [c]) ++ rest := by rw [htext, List.append_assoc]; rfl
    cases skip with
    | succ skip =>
      rw [run, hnext]
      exact ih p (pre ++ [c]) skip htext' hread
    | zero =>
      unfold run
      split
      · rw [hnext]
        exact ih p (pre ++ [c]) _ htext' hread
      · rename_i k t hreading
        have hpiece := Lexeme.pieceOf_of_prefix (k := k) htext
          (Lexeme.token?_front (Lexeme.read_eq_token.mp hreading).2).2
        split
        · rename_i q hfeed
          rw [hnext]
          refine ih q (pre ++ [c]) _ htext' ?_
          rw [read_of_feed hfeed]
          exact List.forall_mem_cons.mpr ⟨hpiece, hread⟩
        · rename_i e hfeed
          obtain ⟨expected, rfl⟩ := eq_unexpected_of_feed hfeed
          exact ⟨fun _ => hpiece, fun l hl => hread l (List.mem_reverse.mp hl)⟩
      · exact marked_noToken htext hread

end Progress

/-! ## Tiles -/

/-- Lexemes one after the other in a text, from an offset on: a gap before each of them,
and after the last one the rest of the text, which is a gap as well. -/
inductive Tiles (text : List Char) : Nat → List Lexeme → Prop
  | last {n : Nat} : IsLastGap (text.drop n) → Tiles text n []
  | next {n : Nat} {l : Lexeme} {ls : List Lexeme} :
      n ≤ l.first.offset → IsGap (text.extract n l.first.offset) →
      l.first.offset < l.past.offset → l.PieceOf text → Tiles text l.past.offset ls →
      Tiles text n (l :: ls)

namespace Progress.Scans

variable {text pre : List Char} {p q : Progress} {here : Place} {skip : Nat} {cs : List Char}
variable {ls : List Lexeme}

/-- What is to be passed over is passed over at first. -/
theorem passed_over (h : Scans p here skip cs ls q) : ∃ t rest, cs = t ++ rest ∧
    t.length = skip ∧ Scans p (here.afterAll t) 0 rest ls q := by
  induction cs generalizing here skip with
  | nil =>
    cases h with
    | done => exact ⟨[], [], rfl, rfl, .done⟩
  | cons c cs ih =>
    cases skip with
    | zero => exact ⟨[], c :: cs, rfl, rfl, h⟩
    | succ skip =>
      cases h with
      | skip h =>
        obtain ⟨t, rest, rfl, ht, hrest⟩ := ih h
        exact ⟨c :: t, rest, rfl, by rw [List.length_cons, ht], hrest⟩

/-- **A gap that is read is passed over as a whole.** -/
theorem after_gap {c : Char} {n : Nat} (hgap : Lexeme.gap? (c :: cs) = some n)
    (h : Scans p (here.after c) (n - 1) cs ls q) : ∃ t rest, cs = t ++ rest ∧
      n = (c :: t).length ∧ Scans p (here.afterAll (c :: t)) 0 rest ls q := by
  obtain ⟨t, rest, hcs, ht, hrest⟩ := h.passed_over
  have hpos := (Lexeme.gap?_bounds hgap).1
  refine ⟨t, rest, hcs, ?_, hrest⟩
  rw [List.length_cons]
  omega

/-- **A lexeme that is read is passed over as a whole.** -/
theorem after_token {c : Char} {wanted : List TokenKind} {k : TokenKind} {s : List Char}
    (htoken : Lexeme.token? wanted (c :: cs) = some (k, s))
    (h : Scans p (here.after c) (s.length - 1) cs ls q) : ∃ t rest, cs = t ++ rest ∧
      s = c :: t ∧ Scans p (here.afterAll (c :: t)) 0 rest ls q := by
  obtain ⟨hne, more, hmore⟩ := Lexeme.token?_front htoken
  obtain ⟨t, rest, rfl, ht, hrest⟩ := h.passed_over
  have hlength : s.length = (c :: t).length := by
    have := List.length_pos_iff.mpr hne
    rw [List.length_cons]
    omega
  have hs : s = c :: t := (List.append_inj hmore hlength).1
  exact ⟨t, rest, rfl, hs, hrest⟩

/-- **The lexemes of a scan tile the text**, from the end of the last one before on.
The induction is on the characters that are left, since a gap or a lexeme takes several
of them. -/
theorem tiles {g : List Char} (htext : text = pre ++ (g ++ cs)) (hg : Passed g cs)
    (h : Scans p (Place.start.afterAll (pre ++ g)) 0 cs ls q) : Tiles text pre.length ls := by
  induction hlen : cs.length using Nat.strongRecOn generalizing pre g p cs ls with
  | ind n ih =>
  subst hlen
  have hplace : (Place.start.afterAll (pre ++ g)).offset = pre.length + g.length := by
    rw [Place.offset_afterAll, Place.start, Nat.zero_add, List.length_append]
  have hshort (c : Char) (t rest : List Char) : rest.length < (c :: (t ++ rest)).length := by
    simp only [List.length_cons, List.length_append]
    omega
  cases h with
  | done =>
    refine .last ?_
    rw [htext, List.drop_left, List.append_nil]
    exact hg.isLastGap
  | @gap _ _ _ n c rest _ hread hrest =>
    have hgap := Lexeme.read_eq_gap.mp hread
    obtain ⟨t, rest, rfl, rfl, hscan⟩ := hrest.after_gap hgap
    have hnext := hg.append hgap
    rw [← List.cons_append, List.take_left, List.drop_left] at hnext
    rw [← Place.afterAll_append, List.append_assoc] at hscan
    exact ih rest.length (hshort c t rest) (by simpa using htext) hnext hscan rfl
  | @token _ p' _ _ c rest l ls hread hfirst hpast _ hrest =>
    obtain ⟨hgap, htoken⟩ := Lexeme.read_eq_token.mp hread
    have hpiece : l.PieceOf text := by
      have hl : l = ⟨l.kind, .ofList l.text.toList, Place.start.afterAll (pre ++ g),
          (Place.start.afterAll (pre ++ g)).afterAll l.text.toList⟩ := by
        rw [String.ofList_toList, ← hpast, ← hfirst]
      rw [hl]
      exact Lexeme.pieceOf_of_prefix (by rw [htext, List.append_assoc])
        (Lexeme.token?_front htoken).2
    obtain ⟨t, rest, rfl, hlexeme, hscan⟩ := hrest.after_token htoken
    have hend : l.past.offset = (pre ++ (g ++ c :: t)).length := by
      rw [hpast, Place.offset_afterAll, hplace, hlexeme]
      simp only [List.length_append]
      omega
    refine .next ?_ ?_ ?_ hpiece ?_
    · rw [hfirst, hplace]
      exact Nat.le_add_right _ _
    · rw [hfirst, hplace, htext]
      have hcut : (pre ++ (g ++ c :: (t ++ rest))).extract pre.length (pre.length + g.length) = g := by
        simp [List.extract]
      rw [hcut]
      exact hg.isGap hgap
    · rw [hend, hfirst, hplace]
      simp only [List.length_append, List.length_cons]
      omega
    · rw [hend]
      rw [← Place.afterAll_append, List.append_assoc, ← List.append_nil (pre ++ _)] at hscan
      exact ih rest.length (hshort c t rest) (by simpa using htext) (.gap .nil) hscan rfl

end Progress.Scans

/-- **The lexemes of a text tile it.** -/
theorem Parsed.tiles {text : String} {parsed : Parsed} (h : Parsed.ofText text = .ok parsed) :
    Tiles text.toList 0 parsed.lexemes := by
  obtain ⟨q, hscans, -⟩ := Parsed.scans h
  have hbegin : Progress.start.Scans (Place.start.afterAll ([] ++ [])) 0 text.toList
      parsed.lexemes q := hscans
  exact hbegin.tiles rfl (.gap .nil)

end LoxForms
