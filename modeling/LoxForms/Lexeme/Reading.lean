import LoxForms.Lexeme
/-!
# Reading a lexeme

What stands at the front of a text depends on the kinds that are looked for.
Blanks and comments are passed over whatever these are. A word is an
identifier where identifiers are looked for, unless all of it is one of the
reserved words that are looked for too; where they are not, a reserved word is
found even at the front of a longer word. Of the other fixed spellings the
longest is found.
-/

namespace LoxForms

namespace Lexeme

/-- The blank characters: space, tab, form feed, carriage return and newline. -/
def isBlank (c : Char) : Bool :=
  c = ' ' || c = '\t' || c = '\x0c' || c = '\r' || c = '\n'

/-- What a word can begin with: a letter from A to Z in either case, or an
underscore. -/
def isWordStart (c : Char) : Bool := c.isAlpha || c = '_'

/-- What a word can go on with: the same, or a decimal digit. -/
def isWordPart (c : Char) : Bool := c.isAlphanum || c = '_'

/-- The kinds with a fixed spelling, none before a longer one that it is the
beginning of. -/
def fixedKinds : List TokenKind :=
  [.returnWord, .classWord, .falseWord, .printWord, .superWord, .whileWord,
   .elseWord, .thisWord, .trueWord, .andWord, .forWord, .funWord, .nilWord, .varWord,
   .bangEqual, .equalEqual, .greaterEqual, .ifWord, .lessEqual, .orWord,
   .bang, .comma, .dot, .equal, .greater, .leftBrace, .less, .leftParen,
   .minus, .plus, .rightBrace, .rightParen, .semicolon, .slash, .star]

/-- The word at the front of a text. -/
def word? : List Char → Option (List Char)
  | [] => none
  | c :: rest => if isWordStart c then some (c :: rest.takeWhile isWordPart) else none

/-- The number at the front of a text: digits, and with them a point if digits
come after it. -/
def number? (s : List Char) : Option (List Char) :=
  match s.takeWhile Char.isDigit, s.dropWhile Char.isDigit with
  | [], _ => none
  | whole, '.' :: d :: rest =>
    if d.isDigit then some (whole ++ '.' :: d :: rest.takeWhile Char.isDigit) else some whole
  | whole, _ => some whole

/-- The string at the front of a text, with both of its quotes. -/
def string? : List Char → Option (List Char)
  | '"' :: rest =>
    if rest.contains '"' then some ('"' :: (rest.takeWhile (· != '"') ++ ['"'])) else none
  | _ => none

/-- A word that is looked for as a reserved one, and otherwise an identifier. -/
def kindOfWord (wanted : List TokenKind) (text : List Char) : TokenKind :=
  (TokenKind.words.find? fun k => wanted.contains k && k.spelling? == some text).getD .identifier

/-- Where identifiers are looked for, the reserved words are found through
them and not by themselves. -/
def searched (wanted : List TokenKind) : List TokenKind :=
  wanted.filter fun k =>
    k != .endOfText && !(wanted.contains .identifier && TokenKind.words.contains k)

/-- The fixed spelling at the front of a text. -/
def fixed? (wanted : List TokenKind) (s : List Char) : Option (TokenKind × List Char) :=
  fixedKinds.findSome? fun k =>
    match k.spelling? with
    | some t => if (searched wanted).contains k && t.isPrefixOf s then some (k, t) else none
    | none => none

/-- What has been found as a token of some kind, if that kind is looked for. -/
def ifWanted (wanted : List TokenKind) (k : TokenKind) (found : Option (List Char)) :
    Option (List Char) :=
  if wanted.contains k then found else none

/-- The token at the front of a text, of the kinds that are looked for. -/
def token? (wanted : List TokenKind) (s : List Char) : Option (TokenKind × List Char) :=
  match ifWanted wanted .identifier (word? s) with
  | some t => some (kindOfWord wanted t, t)
  | none =>
    match ifWanted wanted .number (number? s) with
    | some t => some (.number, t)
    | none =>
      match ifWanted wanted .string (string? s) with
      | some t => some (.string, t)
      | none => fixed? wanted s

/-- How many characters of a blank or a comment stand at the front of a text. -/
def gap? : List Char → Option Nat
  | '/' :: '/' :: rest => some (2 + (rest.takeWhile (· != '\n')).length)
  | c :: _ => if isBlank c then some 1 else none
  | [] => none

/-- What stands at the front of a text. -/
inductive Reading where
  /-- This many characters to pass over. -/
  | gap (length : Nat)
  | token (kind : TokenKind) (text : List Char)
  /-- Nothing that is looked for. -/
  | nothing
deriving DecidableEq, Repr

def read (wanted : List TokenKind) (s : List Char) : Reading :=
  match gap? s with
  | some n => .gap n
  | none =>
    match token? wanted s with
    | some (k, t) => .token k t
    | none => .nothing

/-! ## A lexeme is the front of the text

Whatever is found stands at the front of the text and is not empty, so that
reading on from behind it always gets nearer to the end. -/

theorem word?_front {s t : List Char} (h : word? s = some t) : t ≠ [] ∧ t <+: s := by
  cases s with
  | nil => simp [word?] at h
  | cons c rest =>
    rw [word?] at h
    split at h
    · obtain rfl := Option.some.inj h
      exact ⟨by simp, List.cons_prefix_cons.mpr ⟨rfl, List.takeWhile_prefix _⟩⟩
    · exact absurd h (by simp)

theorem number?_front {s t : List Char} (h : number? s = some t) : t ≠ [] ∧ t <+: s := by
  have split_eq : s.takeWhile Char.isDigit ++ s.dropWhile Char.isDigit = s :=
    List.takeWhile_append_dropWhile
  unfold number? at h
  split at h
  · exact absurd h (by simp)
  · rename_i whole d rest hd hne
    rw [hd] at split_eq
    split at h
    · obtain rfl := Option.some.inj h
      refine ⟨by simp, ?_⟩
      have : List.takeWhile Char.isDigit s ++ '.' :: d :: rest.takeWhile Char.isDigit <+:
          List.takeWhile Char.isDigit s ++ '.' :: d :: rest :=
        (List.prefix_append_right_inj _).mpr (List.cons_prefix_cons.mpr
          ⟨rfl, List.cons_prefix_cons.mpr ⟨rfl, List.takeWhile_prefix _⟩⟩)
      rwa [split_eq] at this
    · obtain rfl := Option.some.inj h
      exact ⟨fun e => hne e, List.takeWhile_prefix _⟩
  · rename_i hne _
    obtain rfl := Option.some.inj h
    exact ⟨fun e => hne e, List.takeWhile_prefix _⟩

theorem string?_front {s t : List Char} (h : string? s = some t) : t ≠ [] ∧ t <+: s := by
  unfold string? at h
  split at h
  · rename_i rest
    split at h
    · rename_i hq
      obtain rfl := Option.some.inj h
      refine ⟨by simp, List.cons_prefix_cons.mpr ⟨rfl, ?_⟩⟩
      have split_eq : rest.takeWhile (· != '"') ++ rest.dropWhile (· != '"') = rest :=
        List.takeWhile_append_dropWhile
      cases hr : rest.dropWhile (· != '"') with
      | nil =>
        rw [hr, List.append_nil] at split_eq
        have all_ne : (rest.takeWhile (· != '"')).all (· != '"') = true := List.all_takeWhile
        rw [split_eq, List.all_eq_true] at all_ne
        exact absurd (all_ne '"' (List.contains_iff_mem.mp hq)) (by simp)
      | cons c more =>
        have hc : (c != '"') = false := by
          have := List.head?_dropWhile_not (· != '"') rest
          simpa [hr] using this
        have : c = '"' := by simpa using hc
        subst this
        rw [hr] at split_eq
        exact ⟨more, by simpa using split_eq⟩
    · exact absurd h (by simp)
  · exact absurd h (by simp)

theorem fixed?_front {wanted : List TokenKind} {s t : List Char} {k : TokenKind}
    (h : fixed? wanted s = some (k, t)) : k.spelling? = some t ∧ t <+: s := by
  obtain ⟨j, -, hj⟩ := List.exists_of_findSome?_eq_some h
  split at hj
  · rename_i u hu
    split at hj
    · rename_i hp
      obtain ⟨rfl, rfl⟩ := Prod.mk.inj (Option.some.inj hj)
      rw [Bool.and_eq_true] at hp
      exact ⟨hu, List.isPrefixOf_iff_prefix.mp hp.2⟩
    · exact absurd hj (by simp)
  · exact absurd hj (by simp)

theorem eq_some_of_ifWanted {wanted : List TokenKind} {k : TokenKind}
    {found : Option (List Char)} {t : List Char} (h : ifWanted wanted k found = some t) :
    wanted.contains k = true ∧ found = some t := by
  unfold ifWanted at h
  split at h
  · exact ⟨by assumption, h⟩
  · exact absurd h (by simp)

/-- **A token is the front of the text, and not empty.** -/
theorem token?_front {wanted : List TokenKind} {s t : List Char} {k : TokenKind}
    (h : token? wanted s = some (k, t)) : t ≠ [] ∧ t <+: s := by
  unfold token? at h
  split at h
  · rename_i u hu
    obtain ⟨-, rfl⟩ := Prod.mk.inj (Option.some.inj h)
    exact word?_front (eq_some_of_ifWanted hu).2
  · split at h
    · rename_i u hu
      obtain ⟨-, rfl⟩ := Prod.mk.inj (Option.some.inj h)
      exact number?_front (eq_some_of_ifWanted hu).2
    · split at h
      · rename_i u hu
        obtain ⟨-, rfl⟩ := Prod.mk.inj (Option.some.inj h)
        exact string?_front (eq_some_of_ifWanted hu).2
      · obtain ⟨hk, ht⟩ := fixed?_front h
        refine ⟨?_, ht⟩
        rintro rfl
        cases k <;> simp [TokenKind.spelling?] at hk

/-- **A gap is not empty, and no longer than the text.** -/
theorem gap?_bounds {s : List Char} {n : Nat} (h : gap? s = some n) :
    0 < n ∧ n ≤ s.length := by
  unfold gap? at h
  split at h
  · rename_i rest
    obtain rfl := Option.some.inj h
    have := (List.takeWhile_prefix (· != '\n') (l := rest)).length_le
    simp only [List.length_cons]
    omega
  · split at h
    · obtain rfl := Option.some.inj h
      simp
    · exact absurd h (by simp)
  · exact absurd h (by simp)

end Lexeme

end LoxForms
