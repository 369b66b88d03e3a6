import LoxForms.Proofs.Lexeme.Continued
import LoxForms.Proofs.Parsing.Located
/-!
# Errors do not look ahead

A token that cannot come where it stands is noticed as soon as it has been found. So the
error does not depend on what comes after it, as long as the token ends there: as long as
the text goes on with a character that severs, which white space of any kind does.

Lexemes are found by looking ahead, some of them up to two characters beyond their end
and strings up to the next quote. What carries the induction is that whatever is passed
over before the token ends before it does (`Progress.lt_past_of_error`), so that all of
it is looked at in the part of the text that stays (`Lexeme.read_eq_of_found`).
-/

namespace LoxForms

namespace Lexeme

variable {wanted : List TokenKind} {k : TokenKind} {s t rest rest' : List Char}

/-- **Where some token stands that a text holds, the same is read** however the text goes
on after what severs. -/
theorem read_eq_of_found (h : Found k t) (ht : t <+: s) (hr : Severed rest) (hr' : Severed rest')
    (hgap : gap? (s ++ rest) = none) : read wanted (s ++ rest') = read wanted (s ++ rest) := by
  have hs : s ≠ [] := by
    rintro rfl
    exact h.ne_nil (List.prefix_nil.mp ht)
  have hgap' : gap? (s ++ rest') = none :=
    (gap?_append_eq_none hs hr').mpr ((gap?_append_eq_none hs hr).mp hgap)
  rw [read, read, hgap, hgap', token?_append_of_found h ht hr, token?_append_of_found h ht hr']

/-- What is found is found in the part of the text that stays, if that is as long. -/
theorem prefix_of_token?_append (h : token? wanted (s ++ rest) = some (k, t))
    (ht : t.length ≤ s.length) : t <+: s :=
  List.prefix_of_prefix_length_le (token?_front h).2 (List.prefix_append s rest) ht

theorem read_append_of_gap {n : Nat} (h : read wanted (s ++ rest) = .gap n)
    (hn : n < s.length) : read wanted (s ++ rest') = .gap n :=
  read_eq_gap.mpr (gap?_append_of_lt (read_eq_gap.mp h) hn rest')

theorem read_append_of_token (hr : Severed rest) (hr' : Severed rest')
    (h : read wanted (s ++ rest) = .token k t) (ht : t.length ≤ s.length) :
    read wanted (s ++ rest') = .token k t := by
  obtain ⟨hgap, htoken⟩ := read_eq_token.mp h
  have hfound : Found k t := found_of_token? htoken
  exact (read_eq_of_found hfound (prefix_of_token?_append htoken ht) hr hr' hgap).trans h

end Lexeme

namespace Progress

variable {p q : Progress} {here : Place} {skip : Nat} {c : Char} {cs rest rest' : List Char}
variable {stage : Stage} {token : Lexeme} {expected : List TokenKind} {before : List Lexeme}

/-- Of a token that is not looked for, all is told that was found. -/
theorem eq_of_noToken
    (h : p.noToken here c rest = .unexpectedToken stage token expected before) :
    ∃ k t, Lexeme.token? TokenKind.all (c :: rest) = some (k, t) ∧
      token = ⟨k, .ofList t, here, here.afterAll t⟩ := by
  unfold noToken at h
  split at h
  · rename_i k t htoken
    obtain ⟨-, rfl, -⟩ := SyntaxError.unexpectedToken.inj h
    exact ⟨k, t, htoken, rfl⟩
  · exact nomatch h

/-- **A token is found beyond what is passed over.** -/
theorem lt_past_of_error
    (h : p.run here skip cs = .error (.unexpectedToken stage token expected before))
    (hend : token.kind ≠ .endOfText) : here.offset + skip < token.past.offset := by
  induction cs generalizing p here skip with
  | nil =>
    rw [run] at h
    obtain ⟨_, heq⟩ := eq_unexpected_of_finish h
    obtain ⟨-, rfl, -⟩ := SyntaxError.unexpectedToken.inj heq
    exact absurd (kind_endOfText _) hend
  | cons c cs ih =>
    have hoffset := Place.offset_after here c
    cases skip with
    | succ skip =>
      rw [run] at h
      have hlt := ih h
      omega
    | zero =>
      have hfound : ∀ {k t}, t ≠ [] → token = ⟨k, .ofList t, here, here.afterAll t⟩ →
          here.offset + 0 < token.past.offset := by
        rintro k t ht rfl
        rw [Place.offset_afterAll]
        exact Nat.add_lt_add_left (List.length_pos_iff.mpr ht) _
      rw [run] at h
      split at h
      · have hlt := ih h
        omega
      · rename_i k t hread
        split at h
        · have hlt := ih h
          omega
        · rename_i e hfeed
          obtain ⟨_, rfl⟩ := eq_unexpected_of_feed hfeed
          obtain ⟨-, rfl, -⟩ := SyntaxError.unexpectedToken.inj (Except.error.inj h)
          exact hfound (Lexeme.token?_front (Lexeme.read_eq_token.mp hread).2).1 rfl
      · obtain ⟨k, t, htoken, heq⟩ := eq_of_noToken (Except.error.inj h)
        exact hfound (Lexeme.token?_front htoken).1 heq

/-- **A token that is not looked for is told of again**, if it ends in the part that stays. -/
theorem run_append_of_nothing (hr : Lexeme.Severed rest) (hr' : Lexeme.Severed rest')
    (hread : Lexeme.read p.wanted (c :: cs ++ rest) = .nothing)
    (h : p.noToken here c (cs ++ rest) = .unexpectedToken stage token expected before)
    (hpast : token.past.offset = here.offset + (c :: cs).length) :
    p.run here 0 (c :: cs ++ rest') =
      .error (.unexpectedToken stage token expected before) := by
  obtain ⟨k, t, htoken, rfl⟩ := eq_of_noToken h
  rw [Place.offset_afterAll] at hpast
  have hfound : Lexeme.Found k t := Lexeme.found_of_token? htoken
  have hfront : t <+: c :: cs := Lexeme.prefix_of_token?_append htoken (by omega)
  have hagain : Lexeme.read p.wanted (c :: cs ++ rest') = .nothing :=
    (Lexeme.read_eq_of_found hfound hfront hr hr' (Lexeme.read_eq_nothing.mp hread).1).trans hread
  have hall : Lexeme.token? TokenKind.all (c :: cs ++ rest') =
      Lexeme.token? TokenKind.all (c :: cs ++ rest) :=
    (Lexeme.token?_append_of_found hfound hfront hr').trans
      (Lexeme.token?_append_of_found hfound hfront hr).symm
  rw [List.cons_append] at hagain hall ⊢
  rw [run, hagain]
  simp only [noToken, hall, List.cons_append]
  exact congrArg Except.error h

/-- **What comes after the token does not matter to the run.** -/
theorem run_append_of_error (hr : Lexeme.Severed rest) (hr' : Lexeme.Severed rest')
    (h : p.run here skip (cs ++ rest) = .error (.unexpectedToken stage token expected before))
    (hend : token.kind ≠ .endOfText) (hpast : token.past.offset = here.offset + cs.length) :
    p.run here skip (cs ++ rest') = .error (.unexpectedToken stage token expected before) := by
  induction cs generalizing p here skip with
  | nil =>
    have hlt := lt_past_of_error h hend
    rw [hpast, List.length_nil] at hlt
    omega
  | cons c cs ih =>
    have hoffset := Place.offset_after here c
    have hlength : (c :: cs).length = cs.length + 1 := rfl
    cases skip with
    | succ skip =>
      rw [List.cons_append, run] at h ⊢
      exact ih h (by omega)
    | zero =>
      rw [List.cons_append, run] at h
      split at h
      · rename_i n hread
        have hlt := lt_past_of_error h hend
        have hagain : Lexeme.read p.wanted (c :: (cs ++ rest')) = .gap n :=
          Lexeme.read_append_of_gap (s := c :: cs) hread (by omega)
        rw [List.cons_append, run, hagain]
        exact ih h (by omega)
      · rename_i k t hread
        have hagain : t.length ≤ (c :: cs).length →
            Lexeme.read p.wanted (c :: (cs ++ rest')) = .token k t :=
          Lexeme.read_append_of_token hr hr' hread
        rw [List.cons_append, run]
        split at h
        · rename_i q hfeed
          have hlt := lt_past_of_error h hend
          rw [hagain (by omega)]
          simp only [hfeed]
          exact ih h (by omega)
        · rename_i e hfeed
          obtain ⟨_, rfl⟩ := eq_unexpected_of_feed hfeed
          obtain ⟨-, rfl, -⟩ := SyntaxError.unexpectedToken.inj (Except.error.inj h)
          rw [Place.offset_afterAll] at hpast
          rw [hagain (by omega)]
          simp only [hfeed]
          exact h
      · rename_i hread
        exact run_append_of_nothing hr hr' hread (Except.error.inj h) hpast

end Progress

/-- **An error does not depend on the text after it.** If a token is unexpected that ends
where the text goes on with white space, or with anything else that severs, then any other
such text makes the same error after the same beginning: with the same token at the same
place, the same kinds that could have come instead, and the same lexemes before it. -/
theorem Parsed.ofText_append_of_error {beginning rest rest' : String} {stage : Stage}
    {token : Lexeme} {expected : List TokenKind} {before : List Lexeme}
    (hr : Lexeme.Severed rest.toList) (hr' : Lexeme.Severed rest'.toList)
    (h : ofText (beginning ++ rest) = .error (.unexpectedToken stage token expected before))
    (hend : token.kind ≠ .endOfText) (hpast : token.past.offset = beginning.length) :
    ofText (beginning ++ rest') = .error (.unexpectedToken stage token expected before) := by
  rw [ofText, String.toList_append] at h ⊢
  refine Progress.run_append_of_error hr hr' h hend ?_
  rw [hpast, ← String.length_toList]
  exact (Nat.zero_add _).symm

/-- A number that is not to come after a name, where a point and a digit come later in one
text and a quote that is never closed in the other. -/
theorem Parsed.ofText_append_of_error_number : ∃ stage token expected before,
    ofText ("print a // b\n 2" ++ " .5;") =
      .error (.unexpectedToken stage token expected before) ∧
    ofText ("print a // b\n 2" ++ "\n\"") =
      .error (.unexpectedToken stage token expected before) ∧
    token.text = "2" := by
  have hread : (match ofText ("print a // b\n 2" ++ " .5;") with
      | .error (.unexpectedToken _ token _ _) => some (token.kind, token.past.offset, token.text)
      | _ => none) = some (.number, 15, "2") := by decide +kernel
  cases h : ofText ("print a // b\n 2" ++ " .5;") with
  | ok parsed =>
    rw [h] at hread
    exact nomatch hread
  | error e =>
    rw [h] at hread
    cases e with
    | unexpectedCharacter => exact nomatch hread
    | unexpectedToken stage token expected before =>
      obtain ⟨hkind, hrest⟩ := Prod.mk.inj (Option.some.inj hread)
      obtain ⟨hpast, htext⟩ := Prod.mk.inj hrest
      have hr : Lexeme.Severed " .5;".toList := by decide
      have hr' : Lexeme.Severed "\n\"".toList := by decide
      have hend : token.kind ≠ .endOfText := by
        rw [hkind]
        decide
      have hsame := ofText_append_of_error hr hr' h hend hpast
      exact ⟨stage, token, expected, before, rfl, hsame, htext⟩

end LoxForms
