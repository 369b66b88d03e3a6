import LoxForms.Proofs.Automaton.Admitting
import LoxForms.Proofs.Form.Safety
import LoxForms.Proofs.Parsing.Located
/-!
# What an error expects

An error tells which kinds of token could have come instead of the one that did.
It takes them from the stack as it is when the error is noticed, and by then
productions may have been finished for a token that fits nowhere. Still each of
the kinds could have come, there is one at least, and the token that did come is
of none of them. If nothing was finished for the token, these kinds are all that
could have come: `Parsed.expected_genuine`.
-/

namespace LoxForms

namespace Progress

open Automaton Stack

variable {p q : Progress} {l : Lexeme} {ls : List Lexeme} {e : SyntaxError}

/-- **There is always something to expect**, so that no error falls back on what
it would tell otherwise. -/
theorem unexpected_eq {s : Stack} (hs : s.IsPath) (stage : Stage) (token : Lexeme)
    (fallback : List TokenKind) :
    p.unexpected stage token s fallback =
      .unexpectedToken stage token s.expected p.read.reverse := by
  have hne : s.expected.isEmpty = false := List.isEmpty_eq_false_iff.mpr hs.expected_ne_nil
  simp only [unexpected, hne, Bool.false_eq_true, if_false]

/-- A stack where the productions before a token are finished, and there is nothing
to do for it. -/
structure StuckAt (p : Progress) (k : TokenKind) (s : Stack) : Prop where
  reachable : p.stack.Reachable
  finishes : Finishes k p.stack s
  action? : action? s.top k = none

theorem StuckAt.isPath {k : TokenKind} {s : Stack} (h : p.StuckAt k s) : s.IsPath :=
  h.finishes.isPath h.reachable.isPath

theorem StuckAt.not_mem {k : TokenKind} {s : Stack} (h : p.StuckAt k s) : k ∉ s.expected := by
  intro hk
  have haction := mem_wanted.mp (List.mem_filter.mp hk).1
  rw [h.action?] at haction
  exact nomatch haction

/-- A lexeme that cannot be read is met by a stack that has nothing to do for it. -/
theorem exists_stuck_of_feed (hp : p.stack.Reachable) (hl : l.kind ≠ .endOfText)
    (h : p.feed l = .error e) : ∃ s, p.StuckAt l.kind s ∧
      e = .unexpectedToken .reading l s.expected p.read.reverse := by
  obtain ⟨s, hs, hfinishes, ⟨q, -, hsettle⟩ | ⟨haccept, -⟩ | ⟨hnone, hsettle⟩⟩ :=
    hp.settle_cases l.kind
  · rw [feed, hsettle] at h
    cases h
  · exact absurd (action?_eq_accept.mp haccept).2 hl
  · rw [feed, hsettle] at h
    exact ⟨s, ⟨hp, hfinishes, hnone⟩,
      (Except.error.inj h).symm.trans (unexpected_eq hs.isPath _ _ _)⟩

/-- So is the end of a text that cannot end. -/
theorem exists_stuck_of_finish (hp : p.stack.Reachable) (h : p.finish = .error e) :
    ∃ s, p.StuckAt .endOfText s ∧
      e = .unexpectedToken .reading (.endOfText p.read.head?) s.expected p.read.reverse := by
  obtain ⟨s, hs, hfinishes, ⟨q, hshift, -⟩ | ⟨-, hsettle⟩ | ⟨hnone, hsettle⟩⟩ :=
    hp.settle_cases .endOfText
  · exact absurd rfl (ne_endOfText_of_step (action?_eq_shift.mp hshift))
  · rw [finish, hsettle] at h
    cases h
  · rw [finish, hsettle] at h
    exact ⟨s, ⟨hp, hfinishes, hnone⟩,
      (Except.error.inj h).symm.trans (unexpected_eq hs.isPath _ _ _)⟩

theorem Finds.spans (h : start.Finds ls q) : q.stack.Spans (Lexeme.kinds ls) := by
  have hholds := (Sound.start.feedAll h.feedAll).1 .endOfText
  rw [h.read_eq_reverse, List.reverse_reverse] at hholds
  exact hholds.spans

/-- **Whatever can come next is admitted**, if nothing has been finished for a token
that cannot. -/
theorem Finds.admits_of_canFollow {k : TokenKind} (h : start.Finds ls q)
    (hk : CanFollow (Lexeme.kinds ls) k) : q.stack.admits k := by
  by_cases hend : k = .endOfText
  · subst hend
    rw [canFollow_endOfText, ← List.append_nil (Lexeme.kinds ls)] at hk
    obtain ⟨parsed, hparsed⟩ := h.finish_of_isSentence (w := []) hk
    obtain ⟨s, hsettle, -⟩ := settle_of_finish (p := q) hparsed
    rw [admits, hsettle]
  · rw [canFollow_of_ne hend] at hk
    obtain ⟨q', hfeed⟩ := h.feed_of_isViable (l := ⟨k, "", .start, .start⟩) hk
    obtain ⟨target, s, hsettle, -⟩ := settle_of_feed hfeed
    rw [admits, hsettle]

end Progress

open Automaton Progress

/-- What is true of the kinds that an error expects in the place of a token. The
lexemes before the token have been read one after the other, and the productions
have been finished that are complete before it. -/
structure Genuine (stage : Stage) (k : TokenKind) (expected : List TokenKind)
    (read : List Lexeme) : Prop where
  /-- They are what the stack expects, and no others in the place of these; nothing
  has been finished if the token was found while others were looked for. -/
  of_stack : ∃ q s, start.Finds read q ∧ Stack.Finishes k q.stack s ∧
    (stage = .search → s = q.stack) ∧ expected = s.expected
  ne_nil : expected ≠ []
  not_mem : k ∉ expected
  /-- Each of them can come after what has been read. -/
  canFollow : ∀ j ∈ expected, CanFollow (Lexeme.kinds read) j
  /-- If nothing has been finished for the token, all that can come are told. -/
  exact : stage = .search → ∀ j, CanFollow (Lexeme.kinds read) j → j ∈ expected

namespace Genuine

variable {q : Progress} {ls : List Lexeme} {k : TokenKind}

theorem of_stuck {s : Stack} (h : start.Finds ls q) (hs : q.StuckAt k s) :
    Genuine .reading k s.expected ls where
  of_stack := ⟨q, s, h, hs.finishes, nofun, rfl⟩
  ne_nil := hs.isPath.expected_ne_nil
  not_mem := hs.not_mem
  canFollow _ hj := (h.spans.finishes hs.finishes).canFollow (Stack.mem_expected.mp hj)
  exact := nofun

theorem of_search (h : start.Finds ls q) (hk : k ∉ q.wanted) :
    Genuine .search k q.stack.expected ls where
  of_stack := ⟨q, q.stack, h, .refl, fun _ => rfl, rfl⟩
  ne_nil := (h.reachable .start).isPath.expected_ne_nil
  not_mem hmem := hk (List.mem_filter.mp hmem).1
  canFollow _ hj := h.spans.canFollow (Stack.mem_expected.mp hj)
  exact _ _ hj := Stack.mem_expected.mpr (h.admits_of_canFollow hj)

end Genuine

/-- **What an error expects is what could have come.** The error about a token tells
kinds that the stack expects when the token fits nowhere. There is one at least, that
of the token is not among them, and each of them can come after what has been read.
If the token was found while others were looked for, then all kinds that can come are
told. -/
theorem Parsed.expected_genuine {text : String} {stage : Stage} {token : Lexeme}
    {expected : List TokenKind} {read : List Lexeme}
    (h : Parsed.ofText text = .error (.unexpectedToken stage token expected read)) :
    Genuine stage token.kind expected read := by
  obtain ⟨ls, q, hfinds, hends⟩ :=
    run_ends text.toList start .start 0 List.drop_zero
  have hresult : start.run .start 0 text.toList =
    .error (.unexpectedToken stage token expected read) := h
  generalize start.run .start 0 text.toList = result at hends hresult
  have hread : q.read.reverse = ls := by rw [hfinds.read_eq_reverse, List.reverse_reverse]
  have hreachable := hfinds.reachable .start
  cases hends with
  | finished =>
    obtain ⟨s, hs, heq⟩ := exists_stuck_of_finish hreachable hresult
    obtain ⟨rfl, rfl, rfl, rfl⟩ := SyntaxError.unexpectedToken.inj heq
    rw [hread, kind_endOfText]
    exact .of_stuck hfinds hs
  | misplaced hreading hfeed =>
    obtain ⟨-, htoken⟩ := Lexeme.read_eq_token.mp hreading
    obtain ⟨s, hs, heq⟩ :=
      exists_stuck_of_feed hreachable (Lexeme.found_of_token? htoken).ne_endOfText hfeed
    obtain ⟨rfl, rfl, rfl, rfl⟩ :=
      SyntaxError.unexpectedToken.inj ((Except.error.inj hresult).symm.trans heq)
    rw [hread]
    exact .of_stuck hfinds hs
  | @nothing here c rest hplace hreading =>
    obtain ⟨-, hnone⟩ := Lexeme.read_eq_nothing.mp hreading
    have herror := Except.error.inj hresult
    unfold noToken at herror
    split at herror
    · rename_i k t htoken
      rw [unexpected_eq hreachable.isPath] at herror
      obtain ⟨rfl, rfl, rfl, rfl⟩ := SyntaxError.unexpectedToken.inj herror
      rw [hread]
      exact .of_search hfinds (Lexeme.not_mem_of_token? hnone htoken)
    · exact nomatch herror

/-- For a semicolon in parentheses the number before it is finished as an expression,
and no operator is told of any more. A semicolon after `print` is found while only
the beginning of an expression is looked for. -/
theorem Parsed.expected_genuine_semicolon :
    (∃ token read, Parsed.ofText "print (1;" = .error (.unexpectedToken .reading token
      [.rightParen] read) ∧ Genuine .reading token.kind [.rightParen] read) ∧
    ∃ token read, Parsed.ofText "print ;" = .error (.unexpectedToken .search token
      Nonterminal.expressionStarts read) ∧
      Genuine .search token.kind Nonterminal.expressionStarts read := by
  have hgenuine (text : String) (told : Stage × List TokenKind)
      (hread : (match Parsed.ofText text with
        | .error (.unexpectedToken stage _ expected _) => some (stage, expected)
        | _ => none) = some told) :
      ∃ token read, Parsed.ofText text = .error (.unexpectedToken told.1 token told.2 read) ∧
        Genuine told.1 token.kind told.2 read := by
    split at hread
    · rename_i stage token expected read h
      obtain rfl := Option.some.inj hread
      exact ⟨token, read, h, Parsed.expected_genuine h⟩
    · exact nomatch hread
  exact ⟨hgenuine "print (1;" (.reading, [.rightParen]) (by decide +kernel),
    hgenuine "print ;" (.search, Nonterminal.expressionStarts) (by decide +kernel)⟩

end LoxForms
