import LoxForms.Proofs.Automaton.Viable
import LoxForms.Proofs.Grammar.NearestElse
import LoxForms.Proofs.Lexeme.Searching
import LoxForms.Proofs.Parsing.Finding
/-!
# Errors are where they are said to be

The lexemes that have been read before an error are the beginning of some
sentence, and together with the token that the error is about they are not. So
no error comes too late, nor too early: `Parsed.located`.

That it does not come too early is what the automaton can read: had the token
been right, it would have been looked for, found and read
(`Finds.feed_of_isViable`). That it does not come too late is what the stack
holds (`Finds.isViable`).
-/

namespace LoxForms

/-- The kinds of several lexemes. -/
def Lexeme.kinds (ls : List Lexeme) : List TokenKind := ls.map Lexeme.kind

/-- What an error says about a text. The lexemes before it are the beginning of a
sentence. A token cannot come after them, and stands where it is said to; if it
is the end of the text, they are no sentence. Where there is said to be no
token, nothing stands at all. -/
def SyntaxError.Located (text : List Char) : SyntaxError → Prop
  | .unexpectedToken _ token _ read =>
    IsViable (Lexeme.kinds read) ∧
      if token.kind = .endOfText then ¬IsSentence (Lexeme.kinds read)
      else ¬IsViable (Lexeme.kinds read ++ [token.kind]) ∧
        token.text.toList <+: text.drop token.first.offset
  | .unexpectedCharacter c place _ read =>
    IsViable (Lexeme.kinds read) ∧
      ∃ rest, text.drop place.offset = c :: rest ∧ ¬Lexeme.Stands (c :: rest)

theorem Lexeme.Found.ne_endOfText {k : TokenKind} {t : List Char} (h : Found k t) :
    k ≠ .endOfText := by
  rintro rfl
  rcases h with h | ⟨h, -⟩ | ⟨h, -⟩ | ⟨h, -⟩ <;> exact absurd h (by simp [TokenKind.spelling?])

namespace Progress

open Automaton Stack

variable {p q : Progress} {l : Lexeme} {ls : List Lexeme} {e : SyntaxError}

theorem Finds.read_eq_reverse (h : start.Finds ls q) : q.read = ls.reverse :=
  h.read_eq.trans (List.append_nil _)

/-- **What has been read is the beginning of a sentence.** -/
theorem Finds.isViable (h : start.Finds ls q) : IsViable (Lexeme.kinds ls) := by
  have hholds := (Sound.start.feedAll h.feedAll).1 .endOfText
  rw [h.read_eq_reverse, List.reverse_reverse] at hholds
  obtain ⟨more, hmore⟩ := hholds.spans.exists_program
  exact ⟨more, isSentence_iff_makes.mpr hmore⟩

theorem feedAll_append (p : Progress) (u w : List Lexeme) :
    p.feedAll (u ++ w) = p.feedAll u >>= fun q => q.feedAll w := List.foldlM_append

/-- Where a sentence has been read up to some lexeme, it is read to its end. -/
theorem Finds.finish_of_isSentence {w : List Lexeme} (h : start.Finds ls q)
    (hs : IsSentence (Lexeme.kinds ls ++ Lexeme.kinds w)) :
    ∃ parsed, (q.feedAll w >>= finish) = .ok parsed := by
  obtain ⟨ts, hreads⟩ := hs.readable (ls ++ w) List.map_append
  obtain ⟨children, rfl⟩ := hreads.exists_program
  let parsed : Parsed := ⟨.node (.rule .start) children, ls ++ w⟩
  have hall : (start.feedAll (ls ++ w) >>= finish) = .ok parsed :=
    finish_feedAll_iff.mpr ⟨rfl, hreads⟩
  rw [feedAll_append, h.feedAll] at hall
  exact ⟨parsed, hall⟩

/-- **A lexeme that can come next is read.** -/
theorem Finds.feed_of_isViable (h : start.Finds ls q)
    (hs : IsViable (Lexeme.kinds ls ++ [l.kind])) : ∃ q', q.feed l = .ok q' := by
  obtain ⟨more, hmore⟩ := hs
  have hkinds : Lexeme.kinds ls ++ Lexeme.kinds (l :: Lexeme.ofKinds more) =
      Lexeme.kinds ls ++ [l.kind] ++ more := by
    rw [Lexeme.kinds, Lexeme.kinds, List.map_cons, Lexeme.map_kind_ofKinds, List.append_assoc]
    rfl
  rw [← hkinds] at hmore
  obtain ⟨parsed, hall⟩ := h.finish_of_isSentence hmore
  rw [feedAll_cons] at hall
  cases hfeed : q.feed l with
  | ok q' => exact ⟨q', rfl⟩
  | error e =>
    rw [hfeed] at hall
    exact nomatch hall

/-! ## What the errors say -/

/-- An error about a lexeme that cannot be read is about that lexeme. -/
theorem eq_unexpected_of_feed (h : p.feed l = .error e) :
    ∃ expected, e = .unexpectedToken .reading l expected p.read.reverse := by
  unfold feed at h
  split at h
  · exact nomatch h
  · exact ⟨_, (Except.error.inj h).symm⟩
  · exact ⟨_, (Except.error.inj h).symm⟩

theorem eq_unexpected_of_finish (h : p.finish = .error e) :
    ∃ expected,
      e = .unexpectedToken .reading (.endOfText p.read.head?) expected p.read.reverse := by
  unfold finish at h
  split at h
  · exact nomatch h
  · exact ⟨_, (Except.error.inj h).symm⟩
  · exact ⟨_, (Except.error.inj h).symm⟩

theorem kind_endOfText (last : Option Lexeme) : (Lexeme.endOfText last).kind = .endOfText := by
  cases last <;> rfl

end Progress

open Progress

/-- **Errors are located exactly.** If a text is not read, then the lexemes that
the error holds have been found in it and read one after the other; they are the
beginning of a sentence; and what comes after them in the text cannot follow
them. -/
theorem Parsed.located {text : String} {e : SyntaxError} (h : Parsed.ofText text = .error e) :
    (∃ q, start.Finds e.read q) ∧ e.Located text.toList := by
  obtain ⟨ls, q, hfinds, hends⟩ :=
    run_ends text.toList start .start 0 List.drop_zero
  have hresult : start.run .start 0 text.toList = .error e := h
  generalize start.run .start 0 text.toList = result at hends hresult
  have hread : q.read.reverse = ls := by rw [hfinds.read_eq_reverse, List.reverse_reverse]
  have hviable := hfinds.isViable
  cases hends with
  | finished =>
    obtain ⟨expected, rfl⟩ := eq_unexpected_of_finish hresult
    rw [hread]
    refine ⟨⟨q, hfinds⟩, hviable, ?_⟩
    rw [if_pos (kind_endOfText _)]
    intro hs
    rw [← List.append_nil (Lexeme.kinds ls)] at hs
    obtain ⟨parsed, hparsed⟩ := hfinds.finish_of_isSentence (w := []) hs
    rw [feedAll_nil, show (Except.ok q >>= finish) = q.finish from rfl, hresult] at hparsed
    exact nomatch hparsed
  | misplaced hreading hfeed =>
    obtain rfl := Except.error.inj hresult
    obtain ⟨expected, rfl⟩ := eq_unexpected_of_feed hfeed
    obtain ⟨-, htoken⟩ := Lexeme.read_eq_token.mp hreading
    rw [hread]
    refine ⟨⟨q, hfinds⟩, hviable, ?_⟩
    rw [if_neg (Lexeme.found_of_token? htoken).ne_endOfText]
    refine ⟨fun hs => ?_, (Lexeme.token?_front htoken).2⟩
    obtain ⟨q', hq'⟩ := hfinds.feed_of_isViable hs
    rw [hfeed] at hq'
    exact nomatch hq'
  | @nothing here c rest hplace hreading =>
    obtain rfl := Except.error.inj hresult
    obtain ⟨hgap, hnone⟩ := Lexeme.read_eq_nothing.mp hreading
    unfold noToken
    split
    · rename_i k t htoken
      rw [← hread] at hfinds hviable
      refine ⟨⟨q, hfinds⟩, hviable, ?_⟩
      rw [if_neg (Lexeme.found_of_token? htoken).ne_endOfText]
      refine ⟨fun hs => ?_, ?_⟩
      · obtain ⟨q', hq'⟩ := hfinds.feed_of_isViable hs
        exact Lexeme.not_mem_of_token? hnone htoken (mem_wanted_of_feed hq')
      · rw [String.toList_ofList, hplace]
        exact (Lexeme.token?_front htoken).2
    · rename_i hnone'
      rw [← hread] at hfinds hviable
      exact ⟨⟨q, hfinds⟩, hviable, rest, hplace, Lexeme.not_stands hgap hnone'⟩

/-- A parenthesis that is not closed, and the semicolon where this is noticed. -/
theorem Parsed.located_semicolon : ∃ e, Parsed.ofText "print (1;" = .error e ∧
    IsViable [.printWord, .leftParen, .number] ∧
    ¬IsViable [.printWord, .leftParen, .number, .semicolon] := by
  have hread : (match Parsed.ofText "print (1;" with
      | .error (.unexpectedToken _ token _ before) => some (Lexeme.kinds before, token.kind)
      | _ => none) = some ([.printWord, .leftParen, .number], .semicolon) := by decide +kernel
  cases hp : Parsed.ofText "print (1;" with
  | ok parsed =>
    rw [hp] at hread
    exact nomatch hread
  | error e =>
    obtain ⟨-, hlocated⟩ := Parsed.located hp
    rw [hp] at hread
    cases e with
    | unexpectedCharacter => exact nomatch hread
    | unexpectedToken stage token expected before =>
      obtain ⟨hkinds, hkind⟩ := Prod.mk.inj (Option.some.inj hread)
      obtain ⟨hviable, hrest⟩ := hlocated
      rw [hkinds] at hviable hrest
      rw [hkind, if_neg (by decide)] at hrest
      exact ⟨_, rfl, hviable, hrest.1⟩

end LoxForms
