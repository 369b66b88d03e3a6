import LoxForms.Proofs.Building.Passing
import LoxForms.Proofs.Parsing.Tiling
/-!
# Where tokens come from

The lexemes of a text tile it, and stand at true places; and every token that stands in
a program is one of these lexemes, on the line where that begins. Nothing else makes
tokens: the rules only pass on those that they are given.
-/

namespace LoxForms

open Building Value

/-- What a token's literal is: the number that a numeral denotes, and a string without
its two quotes. No other token has one. -/
def Lexeme.HasLiteral (l : Lexeme) (denoted : Value) : Prop :=
  match l.kind with
  | .number => ∃ x, Double.ofText? l.text = some x ∧ denoted = .float x
  | .string => ∃ body, l.text.toList = '"' :: (body ++ ['"']) ∧ denoted = .text (.ofList body)
  | _ => denoted = .nil

/-- To be one of these lexemes, if the value is a token at all. -/
def Value.HasOrigin (ls : List Lexeme) : Value → Prop
  | token k lexeme denoted line =>
    ∃ l ∈ ls, TokenKind.ofName? l.kind.grammarName = some k ∧ lexeme = l.text ∧
      line = l.first.line ∧ l.HasLiteral denoted
  | _ => True

theorem Lexeme.hasLiteral_of_denotes {l : Lexeme} {v : Value} (hfound : Found l.kind l.text.toList)
    (h : l.Denotes v) : l.HasLiteral v := by
  unfold Lexeme.Denotes at h
  unfold Lexeme.HasLiteral
  cases hkind : l.kind with
  | string =>
    rw [hkind] at h hfound
    obtain hspelled | ⟨hk, -⟩ | ⟨hk, -⟩ | ⟨-, body, -, htext⟩ := hfound
    · exact nomatch hspelled
    · exact nomatch hk
    · exact nomatch hk
    · refine ⟨body, htext, ?_⟩
      rw [h, htext, List.tail_cons, List.dropLast_concat]
  | _ =>
    rw [hkind] at h
    exact h

theorem Value.passes_hasOrigin (ls : List Lexeme) : Passes (HasOrigin ls) where
  other v htoken _ := by
    cases v <;> first | exact trivial | exact nomatch htoken
  loop _ _ := trivial
  methods _ _ _ _ := trivial

/-- Every token in the values of a phrase is one of these lexemes. -/
def origins (ls : List Lexeme) : Account Unit where
  keeps _ v _ := v.Throughout (HasOrigin ls)
  drops _ _ := True
  phrase _ us _ := ∀ u ∈ us, u.Throughout (HasOrigin ls)

section

variable {ls : List Lexeme} {slots : List Slot} {us : List Value} {gs : List Unit}

theorem hasOrigin_of_row (h : (origins ls).Row slots us gs) :
    ∀ u ∈ us, u.Throughout (HasOrigin ls) := by
  induction slots generalizing us gs with
  | nil =>
    obtain ⟨rfl, -⟩ := h
    exact List.forall_mem_nil _
  | cons s slots ih =>
    cases s with
    | keep =>
      obtain ⟨v, _, us, _, rfl, -, hv, hrest⟩ := h
      exact List.forall_mem_cons.mpr ⟨hv, ih hrest⟩
    | drop =>
      obtain ⟨_, _, -, -, hrest⟩ := h
      exact ih hrest
    | absent =>
      obtain ⟨us, rfl, hrest⟩ := h
      exact List.forall_mem_cons.mpr ⟨(passes_hasOrigin ls).nil, ih hrest⟩
    | phrase =>
      obtain ⟨us₁, us₂, _, _, rfl, -, hphrase, hrest⟩ := h
      exact List.forall_mem_append.mpr ⟨hphrase, ih hrest⟩

theorem closed_origins (ls : List Lexeme) (p : Production) : (origins ls).Closed p := by
  intro us vs gs hrow hvalues
  have hus := hasOrigin_of_row hrow
  rcases Shape.values_eq_ok hvalues with ⟨l, v, -, hmade, rfl⟩ | ⟨rfl, -⟩
  · refine List.forall_mem_singleton.mpr ?_
    cases l with
    | rule r =>
      exact (passes_hasOrigin ls).ofRule hus (fun _ _ _ _ _ => trivial) (fun _ _ _ _ => trivial)
        (ofNode_rule.mp hmade)
    | other name =>
      obtain rfl := Except.ok.inj hmade
      exact (passes_hasOrigin ls).node rfl rfl (List.forall_mem_map.mpr hus)
  · exact hus

end

/-- The token that a lexeme becomes. -/
theorem Lexeme.hasOrigin {ls : List Lexeme} {l : Lexeme} {v : Value} (hl : l ∈ ls)
    (hfound : Found l.kind l.text.toList) (hv : Program.readLexeme l = .ok v) : v.HasOrigin ls := by
  obtain ⟨hname, denoted, hdenoted, rfl⟩ := Program.readLexeme_eq_ok.mp hv
  exact ⟨l, hl, hname, rfl, rfl, hasLiteral_of_denotes hfound hdenoted⟩

namespace Program

theorem hasOrigin_of_parsed {text : String} {parsed : Parsed} {statements : List Value}
    (hparsed : Parsed.ofText text = .ok parsed) (h : ofText text = .ok statements) :
    ∀ s ∈ statements, s.Throughout (HasOrigin parsed.lexemes) := by
  obtain ⟨_, hparsed', v, hbuild, rfl⟩ := ofText_eq_ok.mp h
  obtain rfl := Except.ok.inj (hparsed.symm.trans hparsed')
  have hrow : (origins parsed.lexemes).Row [.phrase .program] [v] (parsed.lexemes.map fun _ => ()) :=
    (Parsed.reads hparsed).row (fun p _ => closed_origins _ p) (by decide)
      (fun l hl _ hv => (passes_hasOrigin _).readLexeme hv
        (Lexeme.hasOrigin hl (Parsed.found hparsed l hl) hv))
      (fun _ _ _ => trivial) (Tree.buildAll_cons_eq_ok.mpr ⟨v, hbuild, [], rfl, rfl⟩)
  have hv := hasOrigin_of_row hrow v List.mem_cons_self
  intro s hs
  cases v with
  | list items => exact hv.part (r := .item) (List.mem_map.mpr ⟨s, hs, rfl⟩)
  | _ => exact absurd hs List.not_mem_nil

/-- **Tokens tile the source and carry their true positions.** The lexemes of a text that
has a tree tile it, with gaps of blanks and comments between them, and each of them
stands between two true places; every token in a program is one of the lexemes, with its
text and line and with the literal that its kind has. Where there is no tree, the token
of the error stands between two true places as well, unless it is the end of the text,
and the character of an error is the one at its place, which is a true one. -/
theorem tiled (text : String) :
    (∀ parsed, Parsed.ofText text = .ok parsed →
      Tiles text.toList 0 parsed.lexemes ∧
      ∀ statements, ofText text = .ok statements →
        ∀ s ∈ statements, ∀ v : Value, v.Within s → v.HasOrigin parsed.lexemes) ∧
    ∀ e, Parsed.ofText text = .error e → e.Marked text.toList := by
  have hmarked : Parsed.Marked text.toList (Parsed.ofText text) :=
    Progress.marked_run text.toList .start [] 0 rfl (List.forall_mem_nil _)
  refine ⟨fun parsed hparsed => ⟨Parsed.tiles hparsed, fun statements h s hs =>
    hasOrigin_of_parsed hparsed h s hs⟩, fun e he => ?_⟩
  rwa [he] at hmarked

/-- A string over two lines, a comment with a quote in it, and blanks at both ends. -/
theorem tiled_lines : ∃ parsed statements,
    Parsed.ofText " print\t\"a\n//b\"; // \"c\nd = 1.5;\r\n" = .ok parsed ∧
    ofText " print\t\"a\n//b\"; // \"c\nd = 1.5;\r\n" = .ok statements ∧
    parsed.lexemes.map (fun l => (l.text, l.first.line, l.first.column, l.past.offset)) =
      [("print", 1, 2, 6), ("\"a\n//b\"", 1, 8, 14), (";", 2, 5, 15), ("d", 3, 1, 23),
       ("=", 3, 3, 25), ("1.5", 3, 5, 29), (";", 3, 8, 30)] ∧
    Tiles " print\t\"a\n//b\"; // \"c\nd = 1.5;\r\n".toList 0 parsed.lexemes ∧
    ∀ s ∈ statements, ∀ v : Value, v.Within s → v.HasOrigin parsed.lexemes := by
  have hread : (Parsed.ofText " print\t\"a\n//b\"; // \"c\nd = 1.5;\r\n").toOption.map (fun parsed =>
      parsed.lexemes.map fun l => (l.text, l.first.line, l.first.column, l.past.offset)) =
      some [("print", 1, 2, 6), ("\"a\n//b\"", 1, 8, 14), (";", 2, 5, 15), ("d", 3, 1, 23),
        ("=", 3, 3, 25), ("1.5", 3, 5, 29), (";", 3, 8, 30)] := by decide +kernel
  have hmade : (ofText " print\t\"a\n//b\"; // \"c\nd = 1.5;\r\n").toOption.isSome := by decide +kernel
  cases hparsed : Parsed.ofText " print\t\"a\n//b\"; // \"c\nd = 1.5;\r\n" with
  | error e =>
    rw [hparsed] at hread
    exact nomatch hread
  | ok parsed =>
    rw [hparsed] at hread
    cases hprogram : ofText " print\t\"a\n//b\"; // \"c\nd = 1.5;\r\n" with
    | error e =>
      rw [hprogram] at hmade
      exact nomatch hmade
    | ok statements =>
      obtain ⟨htiles, horigin⟩ := (tiled _).1 parsed hparsed
      exact ⟨parsed, statements, rfl, rfl, Option.some.inj hread, htiles,
        horigin statements hprogram⟩

end Program

end LoxForms
