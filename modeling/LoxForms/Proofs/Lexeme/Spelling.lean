import LoxForms.Lexeme.Reading
/-!
# Spellings

What a lexeme of each kind can look like, and that it is found again: where its
kind is looked for, a well-spelled lexeme is read as itself if a blank comes
after it or the text ends there (`read_of_spells`). Which other kinds are looked
for makes no difference. And where the same kinds are looked for, whatever has
been found is found again before a blank (`read_again`), well-spelled or not.
-/

namespace LoxForms

namespace Lexeme

/-- A letter or an underscore, and then any of these and digits. -/
def IsWord (t : List Char) : Prop :=
  ∃ c rest, t = c :: rest ∧ isWordStart c ∧ rest.all isWordPart

/-- Digits, and then perhaps a point with more digits after it. -/
def IsNumber (t : List Char) : Prop :=
  ∃ whole, whole ≠ [] ∧ whole.all Char.isDigit ∧
    (t = whole ∨ ∃ part, part ≠ [] ∧ part.all Char.isDigit ∧ t = whole ++ '.' :: part)

/-- Anything between two quotes that is itself none. -/
def IsString (t : List Char) : Prop := ∃ body, '"' ∉ body ∧ t = '"' :: (body ++ ['"'])

/-- What a lexeme of each kind looks like. An identifier is a word that is not
reserved. -/
def Spells (k : TokenKind) (t : List Char) : Prop :=
  k.spelling? = some t ∨
  (k = .identifier ∧ IsWord t ∧ ∀ j ∈ TokenKind.words, j.spelling? ≠ some t) ∨
  (k = .number ∧ IsNumber t) ∨
  (k = .string ∧ IsString t)

/-- The characters that are blank. -/
def blanks : List Char := [' ', '\t', '\x0c', '\r', '\n']

theorem isBlank_iff {c : Char} : isBlank c ↔ c ∈ blanks := by
  simp [isBlank, blanks, or_assoc]

/-- What no listed blank has, no blank has. -/
theorem eq_false_of_isBlank {p : Char → Bool} (hp : blanks.any p = false) {c : Char}
    (hc : isBlank c) : p c = false :=
  Bool.eq_false_iff.mpr (List.any_eq_false.mp hp c (isBlank_iff.mp hc))

/-- A text that begins with a blank, if it does not end at once. -/
def AtBlank (s : List Char) : Prop := ∀ c ∈ s.head?, isBlank c

theorem atBlank_nil : AtBlank [] := by simp [AtBlank]

theorem atBlank_cons {c : Char} (hc : isBlank c) (s : List Char) : AtBlank (c :: s) := by
  simp [AtBlank, hc]

variable {wanted : List TokenKind} {k : TokenKind} {t rest : List Char}

theorem takeWhile_of_atBlank {p : Char → Bool} (hp : blanks.any p = false)
    (hr : AtBlank rest) : rest.takeWhile p = [] := by
  cases rest with
  | nil => rfl
  | cons c rest => simp [eq_false_of_isBlank hp (hr c rfl)]

theorem dropWhile_of_atBlank {p : Char → Bool} (hp : blanks.any p = false)
    (hr : AtBlank rest) : rest.dropWhile p = rest := by
  cases rest with
  | nil => rfl
  | cons c rest => simp [eq_false_of_isBlank hp (hr c rfl)]

theorem takeWhile_append_of_atBlank {p : Char → Bool} (hp : blanks.any p = false)
    (ht : t.all p) (hr : AtBlank rest) : (t ++ rest).takeWhile p = t := by
  rw [List.takeWhile_append_of_pos (fun c hc => List.all_eq_true.mp ht c hc),
    takeWhile_of_atBlank hp hr, List.append_nil]

theorem dropWhile_append_of_atBlank {p : Char → Bool} (hp : blanks.any p = false)
    (ht : t.all p) (hr : AtBlank rest) : (t ++ rest).dropWhile p = rest := by
  rw [List.dropWhile_append_of_pos (fun c hc => List.all_eq_true.mp ht c hc),
    dropWhile_of_atBlank hp hr]

/-! ## Words, numbers and strings -/

theorem word?_of_isWord (h : IsWord t) (hr : AtBlank rest) : word? (t ++ rest) = some t := by
  obtain ⟨c, more, rfl, hc, hmore⟩ := h
  rw [List.cons_append, word?, if_pos hc, takeWhile_append_of_atBlank (by decide) hmore hr]

theorem number?_of_isNumber (h : IsNumber t) (hr : AtBlank rest) :
    number? (t ++ rest) = some t := by
  obtain ⟨whole, hne, hwhole, rfl | ⟨part, hpart, hdigits, rfl⟩⟩ := h
  · unfold number?
    rw [takeWhile_append_of_atBlank (by decide) hwhole hr,
      dropWhile_append_of_atBlank (by decide) hwhole hr]
    cases rest with
    | nil => cases t <;> simp_all
    | cons c rest =>
      have hpoint : c ≠ '.' := by
        rintro rfl
        exact absurd (hr '.' rfl) (by decide)
      cases t <;> simp_all
  · obtain ⟨d, part, rfl⟩ := List.exists_cons_of_ne_nil hpart
    have hd : d.isDigit := List.all_eq_true.mp hdigits d List.mem_cons_self
    have hmore : part.all Char.isDigit := by
      rw [List.all_cons, Bool.and_eq_true] at hdigits
      exact hdigits.2
    have htake : (whole ++ '.' :: d :: part ++ rest).takeWhile Char.isDigit = whole := by
      rw [List.append_assoc,
        List.takeWhile_append_of_pos (fun c hc => List.all_eq_true.mp hwhole c hc)]
      simp
    have hdrop : (whole ++ '.' :: d :: part ++ rest).dropWhile Char.isDigit =
        '.' :: d :: (part ++ rest) := by
      rw [List.append_assoc,
        List.dropWhile_append_of_pos (fun c hc => List.all_eq_true.mp hwhole c hc)]
      simp
    unfold number?
    rw [htake, hdrop]
    cases whole with
    | nil => exact absurd rfl hne
    | cons => simp [hd, takeWhile_append_of_atBlank (by decide) hmore hr]

theorem string?_of_isString (h : IsString t) : string? (t ++ rest) = some t := by
  obtain ⟨body, hbody, rfl⟩ := h
  have htake : (body ++ ['"'] ++ rest).takeWhile (· != '"') = body := by
    rw [List.append_assoc, List.takeWhile_append_of_pos]
    · simp
    · intro c hc
      exact bne_iff_ne.mpr fun heq => hbody (heq ▸ hc)
  rw [List.cons_append, string?, htake]
  simp

theorem exists_head_of_isNumber (h : IsNumber t) : ∃ c more, t = c :: more ∧ c.isDigit := by
  obtain ⟨whole, hne, hwhole, ht⟩ := h
  obtain ⟨c, more, rfl⟩ := List.exists_cons_of_ne_nil hne
  have hc : c.isDigit := List.all_eq_true.mp hwhole c List.mem_cons_self
  obtain rfl | ⟨part, -, -, rfl⟩ := ht
  · exact ⟨c, more, rfl, hc⟩
  · exact ⟨c, more ++ '.' :: part, rfl, hc⟩

/-! What is found as a word, a number or a string is one. -/

theorem isWord_of_word? {s : List Char} (h : word? s = some t) : IsWord t := by
  cases s with
  | nil => exact absurd h (by simp [word?])
  | cons c rest =>
    rw [word?] at h
    split at h
    · rename_i hc
      obtain rfl := Option.some.inj h
      exact ⟨c, _, rfl, hc, List.all_takeWhile⟩
    · exact absurd h (by simp)

theorem isNumber_of_number? {s : List Char} (h : number? s = some t) : IsNumber t := by
  have hwhole : (s.takeWhile Char.isDigit).all Char.isDigit := List.all_takeWhile
  unfold number? at h
  split at h
  · exact absurd h (by simp)
  · rename_i d rest hdrop hne
    split at h
    · rename_i hd
      obtain rfl := Option.some.inj h
      refine ⟨_, fun heq => hne heq, hwhole, .inr ⟨d :: rest.takeWhile Char.isDigit, by simp, ?_, rfl⟩⟩
      rw [List.all_cons, hd, List.all_takeWhile]
      rfl
    · obtain rfl := Option.some.inj h
      exact ⟨_, fun heq => hne heq, hwhole, .inl rfl⟩
  · rename_i hne _
    obtain rfl := Option.some.inj h
    exact ⟨_, fun heq => hne heq, hwhole, .inl rfl⟩

theorem isString_of_string? {s : List Char} (h : string? s = some t) : IsString t := by
  unfold string? at h
  split at h
  · rename_i rest
    split at h
    · obtain rfl := Option.some.inj h
      refine ⟨_, fun hm => ?_, rfl⟩
      have hall : (rest.takeWhile (· != '"')).all (· != '"') := List.all_takeWhile
      have hquote : ('"' != '"') = true := List.all_eq_true.mp hall _ hm
      exact absurd hquote (by decide)
    · exact absurd h (by simp)
  · exact absurd h (by simp)

theorem isWord_iff : IsWord t ↔ word? t = some t := by
  refine ⟨fun h => ?_, isWord_of_word?⟩
  have hfound : word? (t ++ []) = some t := word?_of_isWord h atBlank_nil
  rwa [List.append_nil] at hfound

theorem isNumber_iff : IsNumber t ↔ number? t = some t := by
  refine ⟨fun h => ?_, isNumber_of_number?⟩
  have hfound : number? (t ++ []) = some t := number?_of_isNumber h atBlank_nil
  rwa [List.append_nil] at hfound

theorem isString_iff : IsString t ↔ string? t = some t := by
  refine ⟨fun h => ?_, isString_of_string?⟩
  have hfound : string? (t ++ []) = some t := string?_of_isString h
  rwa [List.append_nil] at hfound

instance (t : List Char) : Decidable (IsWord t) := decidable_of_iff _ isWord_iff.symm

instance (t : List Char) : Decidable (IsNumber t) := decidable_of_iff _ isNumber_iff.symm

instance (t : List Char) : Decidable (IsString t) := decidable_of_iff _ isString_iff.symm

instance (k : TokenKind) (t : List Char) : Decidable (Spells k t) :=
  inferInstanceAs (Decidable (_ ∨ _ ∨ _ ∨ _))

/-! No other lexeme begins as one of these does. -/

theorem word?_cons_eq_none {c : Char} (h : isWordStart c = false) : word? (c :: rest) = none := by
  rw [word?, h]
  rfl

theorem number?_cons_eq_none {c : Char} (h : c.isDigit = false) : number? (c :: rest) = none := by
  unfold number?
  rw [List.takeWhile_cons_of_neg (by simp [h])]

theorem string?_cons_eq_none {c : Char} (h : c ≠ '"') : string? (c :: rest) = none := by
  unfold string?
  split
  · rename_i heq
    exact absurd (List.cons.inj heq).1 h
  · rfl

/-! ## Fixed spellings -/

theorem spelling?_ne_nil (h : k.spelling? = some t) : t ≠ [] := by
  rintro rfl
  cases k <;> simp [TokenKind.spelling?] at h

/-- A fixed spelling has no blank in it. -/
theorem isBlank_eq_false_of_mem_spelling (h : k.spelling? = some t) :
    ∀ c ∈ t, isBlank c = false := by
  have all_solid : ∀ k ∈ TokenKind.all, k.spelling?.all fun t => t.all (!isBlank ·) := by decide
  simpa [h] using all_solid k k.mem_all

/-- What stands at the front of a text and has no blank in it ends before the
first blank. -/
theorem prefix_of_atBlank {u : List Char} (hu : ∀ c ∈ u, isBlank c = false) (hr : AtBlank rest)
    (h : u <+: t ++ rest) : u <+: t := by
  induction t generalizing u with
  | nil =>
    cases u with
    | nil => exact List.nil_prefix
    | cons c u =>
      cases rest with
      | nil => exact h
      | cons d rest =>
        obtain ⟨rfl, -⟩ := List.cons_prefix_cons.mp h
        exact absurd (hr c rfl) (by simp [hu c List.mem_cons_self])
  | cons c t ih =>
    cases u with
    | nil => exact List.nil_prefix
    | cons d u =>
      obtain ⟨rfl, hrest⟩ := List.cons_prefix_cons.mp h
      exact List.cons_prefix_cons.mpr ⟨rfl, ih (fun c hc => hu c (List.mem_cons_of_mem _ hc)) hrest⟩

/-- Of the fixed spellings at the front of a fixed spelling, that one itself is
listed first. -/
theorem find?_fixedKinds (h : k.spelling? = some t) :
    fixedKinds.find? (fun j => j.spelling?.any (·.isPrefixOf t)) = some k := by
  have all_first : ∀ k ∈ TokenKind.all, k.spelling?.all fun t =>
      fixedKinds.find? (fun j => j.spelling?.any (·.isPrefixOf t)) == some k := by decide +kernel
  simpa [h] using all_first k k.mem_all

/-- **A fixed spelling is found** before a blank. -/
theorem fixed?_of_spelling (h : k.spelling? = some t) (hk : k ∈ searched wanted)
    (hr : AtBlank rest) : fixed? wanted (t ++ rest) = some (k, t) := by
  obtain ⟨-, before, later, hsplit, hbefore⟩ :=
    List.find?_eq_some_iff_append.mp (find?_fixedKinds h)
  have hfound : (searched wanted).contains k && t.isPrefixOf (t ++ rest) := by
    rw [Bool.and_eq_true, List.isPrefixOf_iff_prefix]
    exact ⟨List.contains_iff_mem.mpr hk, List.prefix_append t rest⟩
  rw [fixed?, hsplit, List.findSome?_append, List.findSome?_eq_none_iff.mpr, Option.none_or,
    List.findSome?_cons, h]
  · simp only [hfound, if_true]
  · intro j hj
    have hno := hbefore j hj
    split
    · rename_i u hu
      rw [if_neg]
      rw [Bool.and_eq_true, List.isPrefixOf_iff_prefix]
      rintro ⟨-, hp⟩
      have hprefix := prefix_of_atBlank (isBlank_eq_false_of_mem_spelling hu) hr hp
      rw [hu, Option.any_some, List.isPrefixOf_iff_prefix.mpr hprefix] at hno
      exact absurd hno (by simp)
    · rfl

/-! ## Reading a lexeme again -/

/-- Whether the first character of a spelling tells that it is no other lexeme. -/
def headTells (k : TokenKind) : List Char → Bool
  | [] => false
  | c :: more => !isBlank c && !c.isDigit && c != '"' && (c != '/' || more.isEmpty) &&
      isWordStart c == TokenKind.words.contains k &&
      (!TokenKind.words.contains k || more.all isWordPart)

/-- How a fixed spelling begins, by which no other lexeme can be found in its
place. -/
theorem exists_head_of_spelling (h : k.spelling? = some t) :
    ∃ c more, t = c :: more ∧ isBlank c = false ∧ c.isDigit = false ∧ c ≠ '"' ∧
      (c = '/' → more = []) ∧ isWordStart c = TokenKind.words.contains k ∧
      (k ∈ TokenKind.words → more.all isWordPart) := by
  have all_heads : ∀ k ∈ TokenKind.all, k.spelling?.all (headTells k) := by decide +kernel
  have hk := all_heads k k.mem_all
  rw [h, Option.all_some] at hk
  obtain ⟨c, more, rfl⟩ := List.exists_cons_of_ne_nil (spelling?_ne_nil h)
  simp only [headTells, Bool.and_eq_true, Bool.not_eq_true', bne_iff_ne, Bool.or_eq_true, beq_iff_eq,
    List.isEmpty_iff, List.contains_eq_mem, decide_eq_false_iff_not] at hk
  obtain ⟨⟨⟨⟨⟨hblank, hdigit⟩, hquote⟩, hslash⟩, hstart⟩, hmore⟩ := hk
  refine ⟨c, more, rfl, hblank, hdigit, hquote, fun hc => ?_, ?_, fun hw => ?_⟩
  · exact hslash.resolve_left fun hne => hne hc
  · rw [hstart, List.contains_eq_mem]
  · exact hmore.resolve_left fun hne => hne hw

theorem isWordStart_eq_false {c : Char} (h : c.isDigit) : isWordStart c = false := by
  have hle : c.toNat ≤ 57 := by
    simp only [Char.isDigit, Bool.and_eq_true, decide_eq_true_eq] at h
    exact UInt32.le_iff_toNat_le.mp h.2
  have hline : c ≠ '_' := by
    rintro rfl
    exact absurd hle (by decide)
  have hupper : c.isUpper = false := by
    refine decide_eq_false fun hc => ?_
    have : 65 ≤ c.toNat := UInt32.le_iff_toNat_le.mp hc.1
    omega
  have hlower : c.isLower = false := by
    refine Bool.and_eq_false_iff.mpr (.inl (decide_eq_false fun hc => ?_))
    have : 97 ≤ c.toNat := UInt32.le_iff_toNat_le.mp hc
    omega
  show (c.isUpper || c.isLower || decide (c = '_')) = false
  rw [hupper, hlower, decide_eq_false hline]
  rfl

theorem word?_of_isNumber (h : IsNumber t) : word? (t ++ rest) = none := by
  obtain ⟨c, more, rfl, hc⟩ := exists_head_of_isNumber h
  exact word?_cons_eq_none (isWordStart_eq_false hc)

theorem word?_of_isString (h : IsString t) : word? (t ++ rest) = none := by
  obtain ⟨body, -, rfl⟩ := h
  exact word?_cons_eq_none (by decide)

theorem number?_of_isString (h : IsString t) : number? (t ++ rest) = none := by
  obtain ⟨body, -, rfl⟩ := h
  exact number?_cons_eq_none (by decide)

theorem isBlank_eq_false {c : Char} (h : isWordStart c ∨ c.isDigit) : isBlank c = false := by
  rw [Bool.eq_false_iff]
  intro hblank
  simp only [isBlank, Bool.or_eq_true, decide_eq_true_eq] at hblank
  obtain (((rfl | rfl) | rfl) | rfl) | rfl := hblank <;> exact absurd h (by decide)

theorem gap?_eq_none {c : Char} (hblank : isBlank c = false)
    (hslash : c = '/' → AtBlank rest) : gap? (c :: rest) = none := by
  unfold gap?
  split
  · rename_i more heq
    obtain ⟨rfl, rfl⟩ := List.cons.inj heq
    exact absurd (hslash rfl '/' rfl) (by decide)
  · rename_i d more heq
    obtain ⟨rfl, rfl⟩ := List.cons.inj heq
    rw [hblank]
    rfl
  · rfl

theorem gap?_of_isBlank {c : Char} (h : isBlank c) : gap? (c :: rest) = some 1 := by
  unfold gap?
  split
  · rename_i heq
    obtain ⟨rfl, -⟩ := List.cons.inj heq
    exact absurd h (by decide)
  · rename_i heq
    obtain ⟨rfl, -⟩ := List.cons.inj heq
    rw [if_pos h]
  · rename_i heq
    exact nomatch heq

/-- Reserved words are told from each other by their spellings. -/
theorem kindOfWord_of_spelling (hk : k ∈ TokenKind.words) (h : k.spelling? = some t)
    (hw : k ∈ wanted) : kindOfWord wanted t = k := by
  have all_apart : ∀ j ∈ TokenKind.words, ∀ k ∈ TokenKind.words,
      j.spelling? = k.spelling? → j = k := by decide
  unfold kindOfWord
  cases hf : TokenKind.words.find? fun k => wanted.contains k && k.spelling? == some t with
  | none =>
    have hno := List.find?_eq_none.mp hf k hk
    rw [h, List.contains_iff_mem.mpr hw] at hno
    exact absurd (by simp) hno
  | some j =>
    have hj := List.find?_some hf
    rw [Bool.and_eq_true, beq_iff_eq] at hj
    exact all_apart j (List.mem_of_find?_eq_some hf) k hk (hj.2.trans h.symm)

theorem kindOfWord_of_not_reserved (h : ∀ k ∈ TokenKind.words, k.spelling? ≠ some t) :
    kindOfWord wanted t = .identifier := by
  rw [kindOfWord, List.find?_eq_none.mpr]
  · rfl
  · intro k hk
    rw [Bool.and_eq_true, beq_iff_eq]
    exact fun ⟨_, heq⟩ => h k hk heq

theorem ifWanted_none (wanted : List TokenKind) (k : TokenKind) : ifWanted wanted k none = none :=
  ite_self none

theorem ifWanted_of_mem {found : Option (List Char)} (h : k ∈ wanted) :
    ifWanted wanted k found = found :=
  if_pos (List.contains_iff_mem.mpr h)

/-- **A fixed spelling is read as itself**, be it a reserved word or not. -/
theorem token?_of_spelling (h : k.spelling? = some t) (hk : k ∈ wanted) (hr : AtBlank rest) :
    token? wanted (t ++ rest) = some (k, t) := by
  obtain ⟨c, more, rfl, -, hdigit, hquote, -, hstart, hmore⟩ := exists_head_of_spelling h
  have hend : k ≠ .endOfText := by
    rintro rfl
    exact absurd h (by simp [TokenKind.spelling?])
  have hnumber : number? (c :: more ++ rest) = none := number?_cons_eq_none hdigit
  have hstring : string? (c :: more ++ rest) = none := string?_cons_eq_none hquote
  unfold token?
  by_cases hword : k ∈ TokenKind.words ∧ .identifier ∈ wanted
  · have hw : IsWord (c :: more) :=
      ⟨c, more, rfl, hstart.trans (List.contains_iff_mem.mpr hword.1), hmore hword.1⟩
    rw [word?_of_isWord hw hr, ifWanted_of_mem hword.2]
    simp only [kindOfWord_of_spelling hword.1 h hk]
  · have hsearched : k ∈ searched wanted := by
      rw [searched, List.mem_filter]
      refine ⟨hk, ?_⟩
      rw [Bool.and_eq_true, bne_iff_ne, Bool.not_eq_true', Bool.and_eq_false_iff]
      simp only [List.contains_eq_mem, decide_eq_false_iff_not]
      exact ⟨hend, (Decidable.not_and_iff_not_or_not.mp hword).symm⟩
    have hnone : ifWanted wanted .identifier (word? (c :: more ++ rest)) = none := by
      by_cases hreserved : k ∈ TokenKind.words
      · exact if_neg (mt List.contains_iff_mem.mp fun hid => hword ⟨hreserved, hid⟩)
      · rw [List.cons_append, word?_cons_eq_none, ifWanted_none]
        rw [hstart]
        simpa using hreserved
    rw [hnone, hnumber, hstring, ifWanted_none, ifWanted_none]
    exact fixed?_of_spelling h hsearched hr

/-! ## What is found -/

/-- What is found as a lexeme of each kind. This is less than to be well-spelled:
an identifier can be a reserved word that is not looked for. -/
def Found (k : TokenKind) (t : List Char) : Prop :=
  k.spelling? = some t ∨
  (k = .identifier ∧ IsWord t) ∨
  (k = .number ∧ IsNumber t) ∨
  (k = .string ∧ IsString t)

theorem kindOfWord_eq (wanted : List TokenKind) (t : List Char) :
    kindOfWord wanted t = .identifier ∨ (kindOfWord wanted t).spelling? = some t := by
  unfold kindOfWord
  cases hf : TokenKind.words.find? fun k => wanted.contains k && k.spelling? == some t with
  | none => exact .inl rfl
  | some k =>
    have hk := List.find?_some hf
    rw [Bool.and_eq_true, beq_iff_eq] at hk
    exact .inr hk.2

/-- **Whatever is found looks like a lexeme of its kind.** -/
theorem found_of_token? {s : List Char} (h : token? wanted s = some (k, t)) : Found k t := by
  unfold token? at h
  split at h
  · rename_i u hu
    obtain ⟨rfl, rfl⟩ := Prod.mk.inj (Option.some.inj h)
    have hw := isWord_of_word? (eq_some_of_ifWanted hu).2
    rcases kindOfWord_eq wanted u with hk | hk
    · exact .inr (.inl ⟨hk, hw⟩)
    · exact .inl hk
  · split at h
    · rename_i u hu
      obtain ⟨rfl, rfl⟩ := Prod.mk.inj (Option.some.inj h)
      exact .inr (.inr (.inl ⟨rfl, isNumber_of_number? (eq_some_of_ifWanted hu).2⟩))
    · split at h
      · rename_i u hu
        obtain ⟨rfl, rfl⟩ := Prod.mk.inj (Option.some.inj h)
        exact .inr (.inr (.inr ⟨rfl, isString_of_string? (eq_some_of_ifWanted hu).2⟩))
      · exact .inl (fixed?_front h).1

theorem Found.eq_of_spelling {u : List Char} (h : Found k t) (hu : k.spelling? = some u) :
    t = u := by
  rcases h with h | ⟨rfl, -⟩ | ⟨rfl, -⟩ | ⟨rfl, -⟩
  · rw [hu] at h
    exact (Option.some.inj h).symm
  all_goals exact absurd hu (by simp [TokenKind.spelling?])

theorem Found.ne_nil (h : Found k t) : t ≠ [] := by
  rcases h with h | ⟨-, c, more, rfl, -⟩ | ⟨-, h⟩ | ⟨-, body, -, rfl⟩
  · exact spelling?_ne_nil h
  · exact List.cons_ne_nil c more
  · obtain ⟨c, more, rfl, -⟩ := exists_head_of_isNumber h
    exact List.cons_ne_nil c more
  · exact List.cons_ne_nil _ _

theorem Spells.found (h : Spells k t) : Found k t := by
  rcases h with h | ⟨hk, hw, -⟩ | h | h
  · exact .inl h
  · exact .inr (.inl ⟨hk, hw⟩)
  · exact .inr (.inr (.inl h))
  · exact .inr (.inr (.inr h))

theorem Spells.ne_nil (h : Spells k t) : t ≠ [] := h.found.ne_nil

/-- **No lexeme looks like a blank or a comment**, unless something else than a
blank comes after it. -/
theorem Found.gap?_eq_none (h : Found k t) (hr : AtBlank rest) : gap? (t ++ rest) = none := by
  rcases h with h | ⟨-, c, more, rfl, hc, -⟩ | ⟨-, h⟩ | ⟨-, body, -, rfl⟩
  · obtain ⟨c, more, rfl, hblank, -, -, hslash, -⟩ := exists_head_of_spelling h
    refine Lexeme.gap?_eq_none hblank fun hc => ?_
    rw [hslash hc]
    exact hr
  · refine Lexeme.gap?_eq_none (isBlank_eq_false (.inl hc)) ?_
    rintro rfl
    exact absurd hc (by decide)
  · obtain ⟨c, more, rfl, hc⟩ := exists_head_of_isNumber h
    refine Lexeme.gap?_eq_none (isBlank_eq_false (.inr hc)) ?_
    rintro rfl
    exact absurd hc (by decide)
  · exact Lexeme.gap?_eq_none rfl (by simp)

/-- **A well-spelled lexeme is read as itself** where its kind is looked for,
before a blank or the end of the text. -/
theorem read_of_spells (h : Spells k t) (hk : k ∈ wanted) (hr : AtBlank rest) :
    read wanted (t ++ rest) = .token k t := by
  have htoken : token? wanted (t ++ rest) = some (k, t) := by
    rcases h with h | ⟨rfl, hw, hfree⟩ | ⟨rfl, h⟩ | ⟨rfl, h⟩
    · exact token?_of_spelling h hk hr
    · rw [token?, word?_of_isWord hw hr, ifWanted_of_mem hk]
      simp only [kindOfWord_of_not_reserved hfree]
    · rw [token?, word?_of_isNumber h, ifWanted_none, number?_of_isNumber h hr, ifWanted_of_mem hk]
    · rw [token?, word?_of_isString h, number?_of_isString h, string?_of_isString h, ifWanted_none,
        ifWanted_none, ifWanted_of_mem hk]
  rw [read, h.found.gap?_eq_none hr, htoken]

/-! ## Reading the same lexeme elsewhere -/

theorem fixed?_again {s : List Char} (h : fixed? wanted s = some (k, t)) (hr : AtBlank rest) :
    fixed? wanted (t ++ rest) = some (k, t) := by
  obtain ⟨hspelling, hfront⟩ := fixed?_front h
  obtain ⟨before, j, later, hsplit, hj, hbefore⟩ := List.findSome?_eq_some_iff.mp h
  rw [fixed?, hsplit, List.findSome?_append, List.findSome?_eq_none_iff.mpr, Option.none_or,
    List.findSome?_cons]
  · -- the kind itself still stands there
    split at hj
    · rename_i u hu
      split at hj
      · rename_i hfound
        obtain ⟨rfl, rfl⟩ := Prod.mk.inj (Option.some.inj hj)
        rw [Bool.and_eq_true] at hfound
        have hagain : (searched wanted).contains j && u.isPrefixOf (u ++ rest) := by
          rw [Bool.and_eq_true, List.isPrefixOf_iff_prefix]
          exact ⟨hfound.1, List.prefix_append u rest⟩
        simp only [hagain, if_true]
      · exact absurd hj (by simp)
    · exact absurd hj (by simp)
  · -- what is listed before it would have stood in the first text as well
    intro i hi
    have hno := hbefore i hi
    split
    · rename_i u hu
      simp only [hu] at hno
      rw [if_neg]
      rw [Bool.and_eq_true, List.isPrefixOf_iff_prefix]
      rintro ⟨hwanted, hp⟩
      have hprefix := prefix_of_atBlank (isBlank_eq_false_of_mem_spelling hu) hr hp
      rw [if_pos] at hno
      · exact absurd hno (by simp)
      · rw [Bool.and_eq_true, List.isPrefixOf_iff_prefix]
        exact ⟨hwanted, hprefix.trans hfront⟩
    · rfl

theorem word?_eq_none_of_head {c : Char} {more s : List Char} (h : word? (c :: s) = none) :
    word? (c :: more) = none := by
  rw [word?] at h ⊢
  split at h
  · exact absurd h (by simp)
  · rename_i hc
    rw [if_neg hc]

/-- **What has been found is found again** before a blank, where the same kinds
are looked for. -/
theorem token?_again {s : List Char} (h : token? wanted s = some (k, t)) (hr : AtBlank rest) :
    token? wanted (t ++ rest) = some (k, t) := by
  have hfound := h
  unfold token? at h
  split at h
  · rename_i u hu
    obtain ⟨rfl, rfl⟩ := Prod.mk.inj (Option.some.inj h)
    obtain ⟨hwanted, hword⟩ := eq_some_of_ifWanted hu
    rw [token?, word?_of_isWord (isWord_of_word? hword) hr, ifWanted, if_pos hwanted]
  · rename_i hnoword
    split at h
    · rename_i u hu
      obtain ⟨rfl, rfl⟩ := Prod.mk.inj (Option.some.inj h)
      obtain ⟨hwanted, hnumber⟩ := eq_some_of_ifWanted hu
      have hu := isNumber_of_number? hnumber
      rw [token?, word?_of_isNumber hu, ifWanted_none, number?_of_isNumber hu hr, ifWanted,
        if_pos hwanted]
    · split at h
      · rename_i u hu
        obtain ⟨rfl, rfl⟩ := Prod.mk.inj (Option.some.inj h)
        obtain ⟨hwanted, hstring⟩ := eq_some_of_ifWanted hu
        have hu := isString_of_string? hstring
        rw [token?, word?_of_isString hu, number?_of_isString hu, string?_of_isString hu,
          ifWanted_none, ifWanted_none, ifWanted, if_pos hwanted]
      · obtain ⟨hspelling, more', hs⟩ := fixed?_front h
        obtain ⟨c, more, rfl, -, hdigit, hquote, -⟩ := exists_head_of_spelling hspelling
        have hnoword' : ifWanted wanted .identifier (word? (c :: more ++ rest)) = none := by
          subst hs
          unfold ifWanted at hnoword ⊢
          split
          · rename_i hwanted
            rw [if_pos hwanted] at hnoword
            exact word?_eq_none_of_head hnoword
          · rfl
        have hnumber : number? (c :: more ++ rest) = none := number?_cons_eq_none hdigit
        have hstring : string? (c :: more ++ rest) = none := string?_cons_eq_none hquote
        rw [token?, hnoword', hnumber, hstring, ifWanted_none, ifWanted_none]
        exact fixed?_again h hr

theorem read_eq_token {s : List Char} :
    read wanted s = .token k t ↔ gap? s = none ∧ token? wanted s = some (k, t) := by
  unfold read
  split
  · rename_i hgap
    simp [hgap]
  · rename_i hgap
    split
    · rename_i htoken
      simp [hgap, htoken]
    · rename_i htoken
      simp [htoken]

theorem read_eq_nothing {s : List Char} :
    read wanted s = .nothing ↔ gap? s = none ∧ token? wanted s = none := by
  unfold read
  split
  · rename_i hgap
    simp [hgap]
  · rename_i hgap
    split
    · rename_i htoken
      simp [htoken]
    · rename_i htoken
      simp [hgap, htoken]

/-- **A lexeme is read again** before a blank, where the same kinds are looked
for. -/
theorem read_again {s : List Char} (h : read wanted s = .token k t) (hr : AtBlank rest) :
    read wanted (t ++ rest) = .token k t := by
  obtain ⟨-, htoken⟩ := read_eq_token.mp h
  exact read_eq_token.mpr ⟨(found_of_token? htoken).gap?_eq_none hr, token?_again htoken hr⟩

end Lexeme

end LoxForms
