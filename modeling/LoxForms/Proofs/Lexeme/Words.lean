import LoxForms.Proofs.Lexeme.Searching
/-!
# Words

A word is an identifier if identifiers are looked for, and it is no reserved word that is
looked for too (`token?_eq_identifier`). A reserved word is then found as a whole word
only (`word?_of_token?`), and what is read after it begins with a character that no word
goes on with (`mem_apart_of_read`).
-/

namespace LoxForms

namespace Lexeme

variable {wanted : List TokenKind} {k : TokenKind} {s t rest : List Char} {c : Char}

/-- What a word is kept apart by from what comes after it: blanks, quotes and signs. -/
def apart : List Char :=
  blanks ++ ['"', '(', ')', '{', '}', ',', '.', '-', '+', ';', '/', '*', '!', '=', '>', '<']

theorem token?_of_word (hid : .identifier ∈ wanted) (h : word? s = some t) :
    token? wanted s = some (kindOfWord wanted t, t) := by
  rw [token?, ifWanted_of_mem hid, h]

/-- **What is found as an identifier**: a word that is not reserved where it stands. -/
theorem token?_eq_identifier : token? wanted s = some (.identifier, t) ↔
    .identifier ∈ wanted ∧ word? s = some t ∧
      ∀ k ∈ TokenKind.words, k ∈ wanted → k.spelling? ≠ some t := by
  constructor
  · intro h
    unfold token? at h
    split at h
    · rename_i u hu
      obtain ⟨hid, hword⟩ := eq_some_of_ifWanted hu
      obtain ⟨hkind, rfl⟩ := Prod.mk.inj (Option.some.inj h)
      refine ⟨List.contains_iff_mem.mp hid, hword, fun k hk hw hspelled => ?_⟩
      rw [kindOfWord_of_spelling hk hspelled hw] at hkind
      subst hkind
      exact absurd hk (by decide)
    · split at h
      · exact absurd h (by simp)
      · split at h
        · exact absurd h (by simp)
        · exact absurd (fixed?_front h).1 (by simp [TokenKind.spelling?])
  · rintro ⟨hid, hword, hfree⟩
    have hkind : kindOfWord wanted t = .identifier := by
      rw [kindOfWord, List.find?_eq_none.mpr]
      · rfl
      · intro k hk
        rw [Bool.and_eq_true, List.contains_iff_mem, beq_iff_eq]
        rintro ⟨hw, hspelled⟩
        exact hfree k hk hw hspelled
    rw [token?_of_word hid hword, hkind]

/-- A reserved word is found as a whole word where identifiers are looked for. -/
theorem word?_of_token? (h : token? wanted s = some (k, t)) (hk : k ∈ TokenKind.words)
    (hid : .identifier ∈ wanted) : word? s = some t := by
  unfold token? at h
  rw [ifWanted_of_mem hid] at h
  split at h
  · rename_i u hu
    obtain ⟨-, rfl⟩ := Prod.mk.inj (Option.some.inj h)
    exact hu
  · split at h
    · obtain ⟨rfl, -⟩ := Prod.mk.inj (Option.some.inj h)
      exact absurd hk (by decide)
    · split at h
      · obtain ⟨rfl, -⟩ := Prod.mk.inj (Option.some.inj h)
        exact absurd hk (by decide)
      · exact absurd hk ((mem_searched.mp (mem_searched_of_fixed? h)).2.2 hid)

/-- A word goes on as far as it can. -/
theorem isWordPart_of_word? (h : word? (t ++ rest) = some t) (hc : c ∈ rest.head?) :
    isWordPart c = false := by
  cases t with
  | nil => exact absurd rfl (word?_front h).1
  | cons d t =>
    rw [List.cons_append, word?] at h
    split at h
    · have htake : (t ++ rest).takeWhile isWordPart = t := (List.cons.inj (Option.some.inj h)).2
      have hcut : (t ++ rest).dropWhile isWordPart = rest := by
        have happend := List.takeWhile_append_dropWhile (p := isWordPart) (l := t ++ rest)
        rw [htake] at happend
        exact List.append_cancel_left happend
      have hstop := List.head?_dropWhile_not isWordPart (t ++ rest)
      rw [hcut, Option.mem_def.mp hc] at hstop
      simpa using hstop
    · cases h

theorem mem_apart_of_gap? {n : Nat} (h : gap? (c :: s) = some n) : c ∈ apart := by
  unfold gap? at h
  split at h
  · rename_i rest hs
    rw [(List.cons.inj hs).1]
    decide
  · rename_i d rest _ hs
    obtain ⟨rfl, -⟩ := List.cons.inj hs
    split at h
    · rename_i hblank
      exact List.mem_append_left _ (isBlank_iff.mp hblank)
    · exact nomatch h
  · exact nomatch h

/-- What no word goes on with begins no word and no number. -/
theorem of_isWordPart_eq_false (hc : isWordPart c = false) :
    isWordStart c = false ∧ c.isDigit = false := by
  rw [isWordPart, Bool.or_eq_false_iff, Char.isAlphanum, Bool.or_eq_false_iff] at hc
  rw [isWordStart, hc.1.1, hc.2]
  exact ⟨rfl, hc.1.2⟩

theorem Found.mem_apart (h : Found k (c :: t)) (hc : isWordPart c = false) : c ∈ apart := by
  have hsign : ∀ k ∈ TokenKind.all, k ∉ TokenKind.words →
      (k.spelling?.bind List.head?).all apart.contains := by decide
  obtain ⟨hstart, hdigit⟩ := of_isWordPart_eq_false hc
  rcases h with hk | ⟨-, e, more, heq, he, -⟩ | ⟨-, hn⟩ | ⟨-, body, -, heq⟩
  · have hapart := hsign k k.mem_all fun hword => by
      obtain ⟨e, more, heq, -, -, -, -, he, -⟩ := exists_head_of_spelling hk
      obtain ⟨rfl, -⟩ := List.cons.inj heq
      rw [hstart, List.contains_iff_mem.mpr hword] at he
      exact nomatch he
    rw [hk] at hapart
    exact List.contains_iff_mem.mp hapart
  · obtain ⟨rfl, -⟩ := List.cons.inj heq
    rw [hstart] at he
    exact nomatch he
  · obtain ⟨e, more, heq, he⟩ := exists_head_of_isNumber hn
    obtain ⟨rfl, -⟩ := List.cons.inj heq
    rw [hdigit] at he
    exact nomatch he
  · rw [(List.cons.inj heq).1]
    decide

/-- What is read at a character that no word goes on with keeps words apart. -/
theorem mem_apart_of_read (h : read wanted (c :: s) ≠ .nothing) (hc : isWordPart c = false) :
    c ∈ apart := by
  unfold read at h
  split at h
  · rename_i n hgap
    exact mem_apart_of_gap? hgap
  · split at h
    · rename_i k t htoken
      obtain ⟨hne, hfront⟩ := token?_front htoken
      obtain ⟨d, t, rfl⟩ := List.exists_cons_of_ne_nil hne
      obtain rfl := (List.cons_prefix_cons.mp hfront).1
      exact (found_of_token? htoken).mem_apart hc
    · exact absurd rfl h

end Lexeme

end LoxForms
