import LoxForms.Proofs.Lexeme.Spelling
/-!
# Searching for a lexeme

What it means that no token is found. If tokens of some kinds have been looked
for in vain, one of another kind may stand there, but none of these
(`not_mem_of_token?`). And if tokens of all kinds have been looked for, nothing
stands there that looks like one (`not_found_of_token?`).
-/

namespace LoxForms

namespace Lexeme

variable {wanted : List TokenKind} {k : TokenKind} {s t : List Char}

theorem mem_searched : k ∈ searched wanted ↔
    k ∈ wanted ∧ k ≠ .endOfText ∧ (.identifier ∈ wanted → k ∉ TokenKind.words) := by
  simp [searched, List.mem_filter, Decidable.imp_iff_not_or]

/-- A fixed spelling that is searched for is found, or else another one. -/
theorem fixed?_ne_none (h : k.spelling? = some t) (hk : k ∈ searched wanted) (hs : t <+: s) :
    fixed? wanted s ≠ none := by
  have all_listed : ∀ k ∈ TokenKind.all, k.spelling?.isSome → k ∈ fixedKinds := by decide
  have hlisted : k ∈ fixedKinds := all_listed k k.mem_all (by rw [h]; rfl)
  intro hnone
  have hno := List.findSome?_eq_none_iff.mp hnone k hlisted
  have hfound : (searched wanted).contains k && t.isPrefixOf s := by
    rw [Bool.and_eq_true, List.isPrefixOf_iff_prefix]
    exact ⟨List.contains_iff_mem.mpr hk, hs⟩
  simp only [h, hfound, if_true] at hno
  exact absurd hno (by simp)

theorem mem_searched_of_fixed? (h : fixed? wanted s = some (k, t)) : k ∈ searched wanted := by
  obtain ⟨j, -, hj⟩ := List.exists_of_findSome?_eq_some h
  split at hj
  · split at hj
    · rename_i hfound
      obtain ⟨rfl, -⟩ := Prod.mk.inj (Option.some.inj hj)
      exact List.contains_iff_mem.mp (Bool.and_eq_true_iff.mp hfound).1
    · exact absurd hj (by simp)
  · exact absurd hj (by simp)

/-- Where no token is found, none of any form is. -/
theorem token?_eq_none (h : token? wanted s = none) :
    (.identifier ∈ wanted → word? s = none) ∧ (.number ∈ wanted → number? s = none) ∧
      (.string ∈ wanted → string? s = none) ∧ fixed? wanted s = none := by
  unfold token? at h
  split at h
  · exact absurd h (by simp)
  · rename_i hword
    split at h
    · exact absurd h (by simp)
    · rename_i hnumber
      split at h
      · exact absurd h (by simp)
      · rename_i hstring
        refine ⟨fun hw => ?_, fun hw => ?_, fun hw => ?_, h⟩
        · rwa [ifWanted_of_mem hw] at hword
        · rwa [ifWanted_of_mem hw] at hnumber
        · rwa [ifWanted_of_mem hw] at hstring

/-- **What has been looked for in vain is not there**: a token that is found only
when all kinds are looked for is of none of the kinds that were. -/
theorem not_mem_of_token? (h : token? wanted s = none)
    (hall : token? TokenKind.all s = some (k, t)) : k ∉ wanted := by
  intro hk
  obtain ⟨hword, hnumber, hstring, hfixed⟩ := token?_eq_none h
  obtain ⟨-, hfront⟩ := token?_front hall
  unfold token? at hall
  rw [ifWanted_of_mem (TokenKind.mem_all _), ifWanted_of_mem (TokenKind.mem_all _),
    ifWanted_of_mem (TokenKind.mem_all _)] at hall
  split at hall
  · rename_i u hu
    obtain ⟨rfl, rfl⟩ := Prod.mk.inj (Option.some.inj hall)
    -- a reserved word is found by itself where identifiers are not looked for
    by_cases hid : .identifier ∈ wanted
    · rw [hword hid] at hu
      exact absurd hu (by simp)
    · rcases kindOfWord_eq TokenKind.all u with heq | hspelling
      · exact hid (heq ▸ hk)
      · refine fixed?_ne_none hspelling (mem_searched.mpr ⟨hk, ?_, fun h => absurd h hid⟩) hfront hfixed
        intro hend
        rw [hend] at hspelling
        exact absurd hspelling (by simp [TokenKind.spelling?])
  · split at hall
    · rename_i hu
      obtain ⟨rfl, -⟩ := Prod.mk.inj (Option.some.inj hall)
      rw [hnumber hk] at hu
      exact absurd hu (by simp)
    · split at hall
      · rename_i hu
        obtain ⟨rfl, -⟩ := Prod.mk.inj (Option.some.inj hall)
        rw [hstring hk] at hu
        exact absurd hu (by simp)
      · obtain ⟨-, hend, hfree⟩ := mem_searched.mp (mem_searched_of_fixed? hall)
        have hsearched : k ∈ searched wanted :=
          mem_searched.mpr ⟨hk, hend, fun _ => hfree (TokenKind.mem_all _)⟩
        exact fixed?_ne_none (fixed?_front hall).1 hsearched hfront hfixed

/-! ## Nothing at all -/

theorem word?_ne_none_of_isWord (h : IsWord t) (hs : t <+: s) : word? s ≠ none := by
  obtain ⟨c, more, rfl, hc, -⟩ := h
  obtain ⟨rest, rfl⟩ := hs
  rw [List.cons_append, word?, if_pos hc]
  exact Option.some_ne_none _

theorem number?_ne_none_of_isNumber (h : IsNumber t) (hs : t <+: s) : number? s ≠ none := by
  obtain ⟨c, more, rfl, hc⟩ := exists_head_of_isNumber h
  obtain ⟨rest, rfl⟩ := hs
  intro hnone
  unfold number? at hnone
  rw [List.cons_append, List.takeWhile_cons_of_pos hc] at hnone
  split at hnone
  · rename_i heq
    exact absurd heq (by simp)
  · split at hnone <;> exact absurd hnone (by simp)
  · exact absurd hnone (by simp)

/-- **Where no token of any kind is found, nothing looks like one.** -/
theorem not_found_of_token? (h : token? TokenKind.all s = none) (hs : t <+: s) : ¬Found k t := by
  obtain ⟨hword, hnumber, hstring, hfixed⟩ := token?_eq_none h
  rintro (hk | ⟨rfl, hk⟩ | ⟨rfl, hk⟩ | ⟨rfl, hk⟩)
  · by_cases hreserved : k ∈ TokenKind.words
    · obtain ⟨c, more, rfl, -, -, -, -, hstart, hmore⟩ := exists_head_of_spelling hk
      have hw : IsWord (c :: more) :=
        ⟨c, more, rfl, hstart.trans (List.contains_iff_mem.mpr hreserved), hmore hreserved⟩
      exact word?_ne_none_of_isWord hw hs (hword (TokenKind.mem_all _))
    · have hend : k ≠ .endOfText := by
        rintro rfl
        exact absurd hk (by simp [TokenKind.spelling?])
      have hsearched : k ∈ searched TokenKind.all :=
        mem_searched.mpr ⟨TokenKind.mem_all k, hend, fun _ => hreserved⟩
      exact fixed?_ne_none hk hsearched hs hfixed
  · exact word?_ne_none_of_isWord hk hs (hword (TokenKind.mem_all _))
  · exact number?_ne_none_of_isNumber hk hs (hnumber (TokenKind.mem_all _))
  · obtain ⟨rest, rfl⟩ := hs
    have hnone := hstring (TokenKind.mem_all _)
    rw [string?_of_isString hk] at hnone
    exact absurd hnone (by simp)

/-- Whether something stands at the front of a text: a blank, a comment, or what
looks like a token of some kind. -/
inductive Stands : List Char → Prop
  | blank {c : Char} {rest : List Char} : isBlank c → Stands (c :: rest)
  | comment {rest : List Char} : Stands ('/' :: '/' :: rest)
  | token {k : TokenKind} {t s : List Char} : Found k t → t <+: s → Stands s

theorem not_stands (hgap : gap? s = none) (h : token? TokenKind.all s = none) : ¬Stands s := by
  rintro (hblank | _ | ⟨hfound, hs⟩)
  · rw [gap?_of_isBlank hblank] at hgap
    exact absurd hgap (by simp)
  · exact absurd hgap (by simp [gap?])
  · exact not_found_of_token? h hs hfound

end Lexeme

end LoxForms
