import LoxForms.Proofs.Lexeme.Searching
/-!
# Lexemes of a text that goes on

What is read at the front of a text is also read there if the text goes on on the
next line (`read_append`). And what is found while some kinds are looked for is also
found while a few more are: a closing brace, a semicolon, and an `else` if that is not
just what has been found (`token?_among`). These are the kinds that can come after a
declaration and not before the first one.
-/

namespace LoxForms

namespace Lexeme

variable {wanted more fewer : List TokenKind} {k : TokenKind} {s t rest : List Char}

/-- Blanks and comments are the same whatever is looked for. -/
theorem read_eq_gap {n : Nat} : read wanted s = .gap n ↔ gap? s = some n := by
  unfold read
  split
  · rename_i hgap
    simp [hgap]
  · rename_i hgap
    split <;> simp [hgap]

/-! ## Going on after what severs -/

/-- Whether no lexeme goes on with a character: it is in no word, and it is none of the
three that can be added to a number or to a sign. -/
def severs (c : Char) : Bool := !isWordPart c && !(['.', '=', '/'].contains c)

/-- White space severs, of the kinds that are blanks and of any other. -/
example : ("\t\n\x0b\x0c\r\x1c\x1d\x1e\x1f \u0085\u00a0\u1680\u2000\u2001\u2002\u2003\u2004" ++
    "\u2005\u2006\u2007\u2008\u2009\u200a\u2028\u2029\u202f\u205f\u3000").toList.all severs := by
  decide

/-- A text that begins with such a character, if it does not end at once. -/
def Severed (s : List Char) : Prop := ∀ c ∈ s.head?, severs c

instance (s : List Char) : Decidable (Severed s) :=
  decidable_of_iff (s.head?.all severs) (Option.all_eq_true severs s.head?)

theorem severed_cons {c : Char} (hc : severs c) (s : List Char) : Severed (c :: s) := by
  simp [Severed, hc]

theorem isWordPart_eq_false {c : Char} (h : severs c) : isWordPart c = false := by
  simpa using (Bool.and_eq_true_iff.mp h).1

theorem isDigit_eq_false {c : Char} (h : severs c) : c.isDigit = false := by
  have hpart := isWordPart_eq_false h
  simp only [isWordPart, Char.isAlphanum, Bool.or_eq_false_iff] at hpart
  exact hpart.1.2

theorem ne_of_severs {c d : Char} (h : severs c) (hd : d ∈ ['.', '=', '/']) : c ≠ d := by
  rintro rfl
  have hnone := (Bool.and_eq_true_iff.mp h).2
  rw [List.contains_iff_mem.mpr hd] at hnone
  exact absurd hnone (by decide)

theorem takeWhile_append_severed {p : Char → Bool} (hp : ∀ c, severs c → p c = false)
    (hr : Severed rest) : (s ++ rest).takeWhile p = s.takeWhile p := by
  induction s with
  | nil =>
    cases rest with
    | nil => rfl
    | cons c rest => simp [hp c (hr c rfl)]
  | cons c s ih => rw [List.cons_append, List.takeWhile_cons, List.takeWhile_cons, ih]

theorem dropWhile_append_severed {p : Char → Bool} (hp : ∀ c, severs c → p c = false)
    (hr : Severed rest) : (s ++ rest).dropWhile p = s.dropWhile p ++ rest := by
  induction s with
  | nil =>
    cases rest with
    | nil => rfl
    | cons c rest => simp [hp c (hr c rfl)]
  | cons c s ih =>
    rw [List.cons_append, List.dropWhile_cons, List.dropWhile_cons, ih]
    split <;> rfl

theorem word?_append (hs : s ≠ []) (hr : Severed rest) : word? (s ++ rest) = word? s := by
  obtain ⟨c, s, rfl⟩ := List.exists_cons_of_ne_nil hs
  rw [List.cons_append, word?, word?, takeWhile_append_severed (fun _ => isWordPart_eq_false) hr]

theorem number?_append (hr : Severed rest) : number? (s ++ rest) = number? s := by
  have hdigit : ∀ c, severs c → c.isDigit = false := fun _ => isDigit_eq_false
  have hpoint : ∀ d more, rest = d :: more → d ≠ '.' ∧ d.isDigit = false := by
    rintro d more rfl
    exact ⟨ne_of_severs (hr d rfl) (by decide), isDigit_eq_false (hr d rfl)⟩
  unfold number?
  rw [takeWhile_append_severed hdigit hr, dropWhile_append_severed hdigit hr]
  generalize s.takeWhile Char.isDigit = whole
  cases whole with
  | nil => rfl
  | cons w whole =>
    match hdrop : s.dropWhile Char.isDigit with
    | [] =>
      cases rest with
      | nil => rfl
      | cons d more => simp [hpoint d more rfl]
    | [c] =>
      cases rest with
      | nil => rfl
      | cons d more => by_cases hc : c = '.' <;> simp [hpoint d more rfl, hc]
    | c :: d :: tail =>
      rw [List.cons_append, List.cons_append]
      by_cases hc : c = '.'
      · subst hc
        simp only [takeWhile_append_severed hdigit hr]
      · simp [hc]

/-- After its first character no fixed spelling has one that severs. -/
theorem severs_eq_false_of_mem_tail (h : k.spelling? = some t) :
    ∀ c ∈ t.tail, severs c = false := by
  have all_go_on : ∀ k ∈ TokenKind.all,
      k.spelling?.all fun t => t.tail.all fun c => !severs c := by decide
  simpa [h] using all_go_on k k.mem_all

/-- What begins in a text and goes on without a character that severs ends in it. -/
theorem prefix_of_severed {u : List Char} (hs : s ≠ []) (hu : ∀ c ∈ u.tail, severs c = false)
    (hr : Severed rest) (h : u <+: s ++ rest) : u <+: s := by
  rcases List.prefix_or_prefix_of_prefix h (List.prefix_append s rest) with hle | ⟨v, rfl⟩
  · exact hle
  · have hv : v <+: rest := (List.prefix_append_right_inj s).mp h
    cases v with
    | nil => exact (List.append_nil s).symm ▸ List.prefix_rfl
    | cons c v =>
      cases rest with
      | nil => exact absurd (List.prefix_nil.mp hv) (List.cons_ne_nil c v)
      | cons d rest =>
        obtain ⟨rfl, -⟩ := List.cons_prefix_cons.mp hv
        have hmem : c ∈ (s ++ c :: v).tail := by
          rw [List.tail_append_of_ne_nil hs]
          exact List.mem_append_right _ List.mem_cons_self
        exact absurd (hr c rfl) (by simp [hu c hmem])

theorem fixed?_append (hs : s ≠ []) (hr : Severed rest) :
    fixed? wanted (s ++ rest) = fixed? wanted s := by
  unfold fixed?
  congr 1
  funext j
  split
  · rename_i u hu
    have hbeginning : u.isPrefixOf (s ++ rest) = u.isPrefixOf s := by
      rw [Bool.eq_iff_iff, List.isPrefixOf_iff_prefix, List.isPrefixOf_iff_prefix]
      exact ⟨prefix_of_severed hs (severs_eq_false_of_mem_tail hu) hr,
        fun h => h.trans (List.prefix_append s rest)⟩
    rw [hbeginning]
  · rfl

/-- Whether a string stands at the front of a text is settled once any token is known
that does. -/
theorem string?_append_of_found (h : Found k t) (ht : t <+: s) :
    string? (s ++ rest) = string? s := by
  obtain ⟨more, rfl⟩ := ht
  have hnone : ∀ c tail, t = c :: tail → c ≠ '"' →
      string? (t ++ more ++ rest) = string? (t ++ more) := by
    rintro c tail rfl hc
    rw [List.append_assoc, List.cons_append, string?_cons_eq_none hc, List.cons_append,
      string?_cons_eq_none hc]
  rcases h with h | ⟨-, c, tail, htext, hc, -⟩ | ⟨-, h⟩ | ⟨-, h⟩
  · obtain ⟨c, tail, htext, -, -, hquote, -⟩ := exists_head_of_spelling h
    exact hnone c tail htext hquote
  · refine hnone c tail htext ?_
    rintro rfl
    exact absurd hc (by decide)
  · obtain ⟨c, tail, htext, hc⟩ := exists_head_of_isNumber h
    refine hnone c tail htext ?_
    rintro rfl
    exact absurd hc (by decide)
  · rw [List.append_assoc, string?_of_isString h, string?_of_isString h]

/-- **Where some token stands that a text holds, the same is found of each list of
kinds** whether or not the text goes on after what severs. -/
theorem token?_append_of_found (h : Found k t) (ht : t <+: s) (hr : Severed rest) :
    token? wanted (s ++ rest) = token? wanted s := by
  have hs : s ≠ [] := by
    rintro rfl
    exact h.ne_nil (List.prefix_nil.mp ht)
  unfold token?
  rw [word?_append hs hr, number?_append hr, fixed?_append hs hr, string?_append_of_found h ht]

/-- **A token is found again** if the text goes on after what severs, and whatever may
come then. -/
theorem token?_append (hr : Severed rest) (h : token? wanted s = some (k, t)) :
    token? wanted (s ++ rest) = some (k, t) :=
  (token?_append_of_found (found_of_token? h) (token?_front h).2 hr).trans h

theorem gap?_cons_cons {c d : Char} (h : ¬(c = '/' ∧ d = '/')) :
    gap? (c :: d :: rest) = if isBlank c then some 1 else none := by
  unfold gap?
  split
  · rename_i heq
    obtain ⟨hc, heq⟩ := List.cons.inj heq
    exact absurd ⟨hc, (List.cons.inj heq).1⟩ h
  · rename_i heq
    rw [(List.cons.inj heq).1]
  · rename_i heq
    exact nomatch heq

/-- Nothing that severs makes a comment of a slash. -/
theorem gap?_append_eq_none (hs : s ≠ []) (hr : Severed rest) :
    gap? (s ++ rest) = none ↔ gap? s = none := by
  match s with
  | [] => exact absurd rfl hs
  | [c] =>
    have hno : ∀ d more, rest = d :: more → ¬(c = '/' ∧ d = '/') := by
      rintro d more rfl ⟨-, hd⟩
      exact ne_of_severs (hr d rfl) (by decide) hd
    have hone : gap? [c] = if isBlank c then some 1 else none := by
      unfold gap?
      split <;> simp_all
    cases rest with
    | nil => rfl
    | cons d more => rw [List.singleton_append, gap?_cons_cons (hno d more rfl), hone]
  | c :: d :: s =>
    by_cases hslash : c = '/' ∧ d = '/'
    · obtain ⟨rfl, rfl⟩ := hslash
      simp [gap?]
    · rw [List.cons_append, List.cons_append, gap?_cons_cons hslash, gap?_cons_cons hslash]

/-- A blank or a comment that ends in a text ends there whatever comes after the text. -/
theorem gap?_append_of_lt {n : Nat} (h : gap? (s ++ rest) = some n) (hn : n < s.length)
    (more : List Char) : gap? (s ++ more) = some n := by
  match s with
  | [] => exact absurd hn (Nat.not_lt_zero n)
  | [c] =>
    have hpos := (gap?_bounds h).1
    simp only [List.length_singleton] at hn
    omega
  | c :: d :: s =>
    by_cases hslash : c = '/' ∧ d = '/'
    · obtain ⟨rfl, rfl⟩ := hslash
      rw [List.cons_append, List.cons_append, gap?] at h ⊢
      obtain rfl := Option.some.inj h
      simp only [List.length_cons] at hn
      have hlt : ((s ++ rest).takeWhile (· != '\n')).length < s.length := by omega
      have hinner : (s.takeWhile (· != '\n')).length ≠ s.length := by
        intro hall
        rw [List.takeWhile_append, if_pos hall, List.length_append] at hlt
        omega
      rw [List.takeWhile_append, List.takeWhile_append, if_neg hinner, if_neg hinner]
    · rw [List.cons_append, List.cons_append, gap?_cons_cons hslash] at h ⊢
      exact h

/-! ## Going on on the next line -/

theorem gap?_append (hs : s ≠ []) : gap? (s ++ '\n' :: rest) = gap? s := by
  have hline : ∀ body : List Char,
      (body ++ '\n' :: rest).takeWhile (· != '\n') = body.takeWhile (· != '\n') := by
    intro body
    induction body with
    | nil => rfl
    | cons c body ih => rw [List.cons_append, List.takeWhile_cons, List.takeWhile_cons, ih]
  match s with
  | [] => exact absurd rfl hs
  | [c] => by_cases hc : c = '/' <;> simp [gap?, hc]
  | c :: d :: s =>
    by_cases hslash : c = '/' ∧ d = '/'
    · obtain ⟨rfl, rfl⟩ := hslash
      rw [List.cons_append, List.cons_append, gap?, gap?, hline]
    · rw [List.cons_append, List.cons_append, gap?_cons_cons hslash, gap?_cons_cons hslash]

/-- **What is read at the front of a text is read there if the text goes on** on the
next line. -/
theorem read_append (hs : s ≠ []) (h : read wanted s ≠ .nothing) :
    read wanted (s ++ '\n' :: rest) = read wanted s := by
  have hr : Severed ('\n' :: rest) := severed_cons (by decide) rest
  unfold read at h ⊢
  rw [gap?_append hs]
  split
  · rfl
  · rename_i hgap
    rw [hgap] at h
    cases htoken : token? wanted s with
    | none =>
      rw [htoken] at h
      exact absurd rfl h
    | some found => rw [token?_append hr htoken]

theorem string?_append_of_not_mem (hs : s ≠ []) (hquote : '"' ∉ rest) :
    string? (s ++ rest) = string? s := by
  obtain ⟨c, s, rfl⟩ := List.exists_cons_of_ne_nil hs
  by_cases hc : c = '"'
  · subst hc
    have hclosed : (s ++ rest).contains '"' = s.contains '"' := by
      rw [Bool.eq_iff_iff, List.contains_iff_mem, List.contains_iff_mem, List.mem_append,
        or_iff_left hquote]
    have hbody : '"' ∈ s → (s ++ rest).takeWhile (· != '"') = s.takeWhile (· != '"') := by
      intro hmem
      rw [List.takeWhile_append, if_neg]
      intro hall
      have hnone : ∀ d ∈ s.takeWhile (· != '"'), d != '"' :=
        fun d hd => List.all_eq_true.mp List.all_takeWhile d hd
      rw [(List.takeWhile_prefix _).eq_of_length hall] at hnone
      exact absurd (hnone _ hmem) (by simp)
    rw [List.cons_append, string?, string?, hclosed]
    split
    · rename_i hmem
      rw [hbody (List.contains_iff_mem.mp hmem)]
    · rfl
  · rw [List.cons_append, string?_cons_eq_none hc, string?_cons_eq_none hc]

/-- **What is read of a text that goes on is read of it by itself**, if nothing on the
next lines can close a string. -/
theorem read_append_of_not_mem (hs : s ≠ []) (hquote : '"' ∉ rest) :
    read wanted (s ++ '\n' :: rest) = read wanted s := by
  have hr : Severed ('\n' :: rest) := severed_cons (by decide) rest
  have hquote : '"' ∉ '\n' :: rest := by simp [hquote]
  unfold read token?
  rw [gap?_append hs, word?_append hs hr, number?_append hr, fixed?_append hs hr,
    string?_append_of_not_mem hs hquote]

/-- **What is read of a text that goes on on the next line is read of it by itself**, if it
is all in this text. -/
theorem read_of_append (hs : s ≠ []) (h : read wanted (s ++ '\n' :: rest) = .token k t)
    (ht : t.length ≤ s.length) : read wanted s = .token k t := by
  have hr : Severed ('\n' :: rest) := severed_cons (by decide) rest
  obtain ⟨hgap, htoken⟩ := read_eq_token.mp h
  have hfront : t <+: s :=
    List.prefix_of_prefix_length_le (token?_front htoken).2 (List.prefix_append _ _) ht
  rw [gap?_append hs] at hgap
  rw [token?_append_of_found (found_of_token? htoken) hfront hr] at htoken
  exact read_eq_token.mpr ⟨hgap, htoken⟩

/-! ## Looking for more -/

/-- Whether a kind is spelled with one character, which no other lexeme begins with. -/
def standsAlone (j : TokenKind) : Bool :=
  match j.spelling? with
  | some [c] => !isWordStart c && !c.isDigit && c != '"' &&
      TokenKind.all.all fun k => k == j || k.spelling?.bind List.head? != some c
  | _ => false

/-- Where a sign stands that no other lexeme begins with, nothing else is found. -/
theorem Found.eq_of_standsAlone {j : TokenKind} {u : List Char} (h : Found k t) (ht : t <+: s)
    (hj : standsAlone j) (hu : j.spelling? = some u) (hs : u <+: s) : k = j := by
  unfold standsAlone at hj
  rw [hu] at hj
  split at hj
  · rename_i c hc
    obtain rfl := Option.some.inj hc
    simp only [Bool.and_eq_true, Bool.not_eq_true', bne_iff_ne] at hj
    obtain ⟨⟨⟨hword, hdigit⟩, hquote⟩, hother⟩ := hj
    obtain ⟨rest, rfl⟩ := hs
    have hhead : ∀ d more, t = d :: more → d = c := by
      rintro d more rfl
      exact (List.cons_prefix_cons.mp ht).1
    rcases h with h | ⟨-, d, more, rfl, hd, -⟩ | ⟨-, h⟩ | ⟨-, body, -, rfl⟩
    · obtain ⟨d, more, rfl⟩ := List.exists_cons_of_ne_nil (spelling?_ne_nil h)
      have hk := List.all_eq_true.mp hother k k.mem_all
      rw [h, hhead d more rfl] at hk
      simpa using hk
    · rw [hhead d more rfl, hword] at hd
      exact absurd hd Bool.false_ne_true
    · obtain ⟨d, more, rfl, hd⟩ := exists_head_of_isNumber h
      rw [hhead d more rfl, hdigit] at hd
      exact absurd hd Bool.false_ne_true
    · exact absurd (hhead _ _ rfl).symm hquote
  · exact absurd hj Bool.false_ne_true

theorem kindOfWord_among (hsub : wanted ⊆ more)
    (h : ∀ j ∈ more, j.spelling? = some t → j ∈ wanted) :
    kindOfWord more t = kindOfWord wanted t := by
  unfold kindOfWord
  congr 2
  funext j
  rw [Bool.eq_iff_iff, Bool.and_eq_true, Bool.and_eq_true, List.contains_iff_mem,
    List.contains_iff_mem, beq_iff_eq]
  exact ⟨fun ⟨hmore, hj⟩ => ⟨h j hmore hj, hj⟩, fun ⟨hwanted, hj⟩ => ⟨hsub hwanted, hj⟩⟩

/-- Reserved words do not count here if identifiers are looked for. -/
theorem fixed?_among (hsub : wanted ⊆ more) (hid : .identifier ∈ wanted)
    (h : ∀ j ∈ more, j ∉ TokenKind.words → ∀ u, j.spelling? = some u → u <+: s → j ∈ wanted) :
    fixed? more s = fixed? wanted s := by
  unfold fixed?
  congr 1
  funext j
  split
  · rename_i u hu
    have hsearched : ((searched more).contains j && u.isPrefixOf s) =
        ((searched wanted).contains j && u.isPrefixOf s) := by
      rw [Bool.eq_iff_iff, Bool.and_eq_true, Bool.and_eq_true, List.contains_iff_mem,
        List.contains_iff_mem, List.isPrefixOf_iff_prefix, mem_searched, mem_searched]
      refine and_congr_left fun hs => ⟨fun ⟨hmore, hend, hfree⟩ => ?_,
        fun ⟨hwanted, hend, hfree⟩ => ⟨hsub hwanted, hend, fun _ => hfree hid⟩⟩
      have hwords := hfree (hsub hid)
      exact ⟨h j hmore hwords u hu hs, hend, fun _ => hwords⟩
    rw [hsearched]
  · rfl

/-- The kinds that can come after a declaration and not before the first one. -/
def closing : List TokenKind := [.rightBrace, .semicolon, .elseWord]

theorem standsAlone_of_closing : ∀ j ∈ closing, j = .elseWord ∨ standsAlone j := by decide

/-- **A token is also found while signs that stand alone are looked for**, and an `else`,
unless it is one as it stands there. -/
theorem token?_among (hsub : wanted ⊆ more)
    (hnew : ∀ j ∈ more, j ∈ wanted ∨ j = .elseWord ∨ standsAlone j)
    (hall : ∀ j ∈ [TokenKind.identifier, .number, .string], j ∈ wanted) (hk : k ∈ wanted)
    (helse : TokenKind.elseWord.spelling? ≠ some t) (h : token? wanted s = some (k, t)) :
    token? more s = some (k, t) := by
  have hfound := found_of_token? h
  have hfront := (token?_front h).2
  have hifWanted : ∀ j ∈ [TokenKind.identifier, .number, .string], ∀ found,
      ifWanted more j found = ifWanted wanted j found := by
    intro j hj found
    rw [ifWanted_of_mem (hall j hj), ifWanted_of_mem (hsub (hall j hj))]
  -- of the new kinds only an `else` can stand there, at the front of a longer word
  have honly : ∀ j ∈ more, ∀ u, j.spelling? = some u → u <+: s → j ∈ wanted ∨ j = .elseWord := by
    intro j hmore u hu hs
    rcases hnew j hmore with hwanted | helse | halone
    · exact .inl hwanted
    · exact .inr helse
    · exact .inl (hfound.eq_of_standsAlone hfront halone hu hs ▸ hk)
  unfold token? at h ⊢
  rw [hifWanted _ (by simp), hifWanted _ (by simp), hifWanted _ (by simp)]
  split at h
  · obtain ⟨-, rfl⟩ := Prod.mk.inj (Option.some.inj h)
    rw [← h]
    refine congrArg (fun j => some (j, _)) (kindOfWord_among hsub fun j hmore hj => ?_)
    refine (honly j hmore _ hj hfront).resolve_right ?_
    rintro rfl
    exact helse hj
  · split at h
    · exact h
    · split at h
      · exact h
      · rw [← h]
        refine fixed?_among hsub (hall _ (by simp)) fun j hmore hwords u hu hs => ?_
        refine (honly j hmore u hu hs).resolve_right ?_
        rintro rfl
        exact hwords (by decide)

/-! ## Looking for less -/

theorem kindOfWord_fewer (hsub : fewer ⊆ wanted) (hk : kindOfWord wanted t ∈ fewer) :
    kindOfWord fewer t = kindOfWord wanted t := by
  cases hfind : TokenKind.words.find? fun j => wanted.contains j && j.spelling? == some t with
  | none =>
    have hnone := List.find?_eq_none.mp hfind
    rw [kindOfWord, kindOfWord, hfind, List.find?_eq_none.mpr]
    intro j hj
    have hno := hnone j hj
    rw [Bool.and_eq_true, List.contains_iff_mem] at hno ⊢
    rintro ⟨hfewer, hspelled⟩
    exact hno ⟨hsub hfewer, hspelled⟩
  | some j =>
    have hj := List.find?_some hfind
    rw [Bool.and_eq_true, beq_iff_eq] at hj
    have hword : kindOfWord wanted t = j := by rw [kindOfWord, hfind, Option.getD_some]
    rw [hword] at hk ⊢
    exact kindOfWord_of_spelling (List.mem_of_find?_eq_some hfind) hj.2 hk

theorem fixed?_fewer (hsub : fewer ⊆ wanted) (hid : .identifier ∈ fewer) (hk : k ∈ fewer)
    (h : fixed? wanted s = some (k, t)) : fixed? fewer s = some (k, t) := by
  have hsearched : ∀ j, j ∈ searched fewer ↔ j ∈ fewer ∧ j ∈ searched wanted := by
    intro j
    rw [mem_searched, mem_searched]
    exact ⟨fun ⟨hfewer, hend, hfree⟩ => ⟨hfewer, hsub hfewer, hend, fun _ => hfree hid⟩,
      fun ⟨hfewer, _, hend, hfree⟩ => ⟨hfewer, hend, fun _ => hfree (hsub hid)⟩⟩
  obtain ⟨before, j, later, hsplit, hj, hbefore⟩ := List.findSome?_eq_some_iff.mp h
  refine List.findSome?_eq_some_iff.mpr ⟨before, j, later, hsplit, ?_, fun i hi => ?_⟩
  · split at hj
    · split at hj
      · rename_i hfound
        obtain ⟨rfl, rfl⟩ := Prod.mk.inj (Option.some.inj hj)
        rw [Bool.and_eq_true, List.contains_iff_mem] at hfound
        refine if_pos ?_
        rw [Bool.and_eq_true, List.contains_iff_mem]
        exact ⟨(hsearched j).mpr ⟨hk, hfound.1⟩, hfound.2⟩
      · exact absurd hj (by simp)
    · exact absurd hj (by simp)
  · have hno := hbefore i hi
    split
    · rename_i u hu
      simp only [hu] at hno
      rw [if_neg]
      rw [Bool.and_eq_true, List.contains_iff_mem]
      rintro ⟨hfewer, hp⟩
      rw [if_pos] at hno
      · exact absurd hno (by simp)
      · rw [Bool.and_eq_true, List.contains_iff_mem]
        exact ⟨((hsearched i).mp hfewer).2, hp⟩
    · rfl

/-- **A token is also found while fewer kinds are looked for**, of which it is one. -/
theorem token?_fewer (hsub : fewer ⊆ wanted)
    (hall : ∀ j ∈ [TokenKind.identifier, .number, .string], j ∈ fewer) (hk : k ∈ fewer)
    (h : token? wanted s = some (k, t)) : token? fewer s = some (k, t) := by
  have hifWanted : ∀ j ∈ [TokenKind.identifier, .number, .string], ∀ found,
      ifWanted fewer j found = ifWanted wanted j found := by
    intro j hj found
    rw [ifWanted_of_mem (hall j hj), ifWanted_of_mem (hsub (hall j hj))]
  unfold token? at h ⊢
  rw [hifWanted _ (by simp), hifWanted _ (by simp), hifWanted _ (by simp)]
  split at h
  · obtain ⟨rfl, rfl⟩ := Prod.mk.inj (Option.some.inj h)
    rw [kindOfWord_fewer hsub hk]
  · split at h
    · exact h
    · split at h
      · exact h
      · exact fixed?_fewer hsub (hall _ (by simp)) hk h

/-- **A token is found whichever kinds are looked for**, if it is one of these and no
other that begins like it is added. -/
theorem token?_transfer (hnew : ∀ j ∈ more, j ∈ wanted ∨ j = .elseWord ∨ standsAlone j)
    (hall : ∀ j ∈ [TokenKind.identifier, .number, .string], j ∈ wanted ∧ j ∈ more)
    (hk : k ∈ wanted) (hk' : k ∈ more) (helse : TokenKind.elseWord.spelling? ≠ some t)
    (h : token? wanted s = some (k, t)) : token? more s = some (k, t) := by
  have hboth : ∀ {j}, j ∈ wanted → j ∈ more → j ∈ wanted.filter more.contains :=
    fun hj hj' => List.mem_filter.mpr ⟨hj, List.contains_iff_mem.mpr hj'⟩
  have hoperands : ∀ j ∈ [TokenKind.identifier, .number, .string],
      j ∈ wanted.filter more.contains :=
    fun j hj => hboth (hall j hj).1 (hall j hj).2
  have hfewer := token?_fewer (fun _ hj => (List.mem_filter.mp hj).1) hoperands (hboth hk hk') h
  refine token?_among (fun j hj => ?_) (fun j hj => ?_) hoperands (hboth hk hk') helse hfewer
  · exact List.contains_iff_mem.mp (List.mem_filter.mp hj).2
  · exact (hnew j hj).imp_left fun hwanted => hboth hwanted hj

end Lexeme

end LoxForms
