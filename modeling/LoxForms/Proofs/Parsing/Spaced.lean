import LoxForms.Proofs.Grammar.Unfolding
import LoxForms.Proofs.Parsing.Finding
/-!
# Lexemes with spaces between them

Lexemes are told apart if there is a space between any two of them, so what the
productions read is what comes out of the text that is written in this way. The
places of the lexemes in this text are what they happen to be, and everything
is the same up to them: `Lexeme.bare` is a lexeme without its places.

`Reads.ofText_spaced` says this of the productions, and `Derivation.read_back`
of the rules.
-/

namespace LoxForms

/-- A lexeme wherever it stands. -/
def Lexeme.bare (l : Lexeme) : TokenKind × String := (l.kind, l.text)

namespace Tree

variable {α β : Type}

mutual

/-- A tree with other leaves. -/
def map (f : α → β) : Tree α → Tree β
  | node label children => .node label (mapAll f children)
  | leaf a => .leaf (f a)
  | absent => .absent

def mapAll (f : α → β) : List (Tree α) → List (Tree β)
  | [] => []
  | t :: ts => map f t :: mapAll f ts

end

theorem mapAll_append (f : α → β) (ts us : List (Tree α)) :
    mapAll f (ts ++ us) = mapAll f ts ++ mapAll f us := by
  induction ts with
  | nil => rfl
  | cons t ts ih => rw [List.cons_append, mapAll, mapAll, ih, List.cons_append]

theorem mapAll_apply (f : α → β) (shape : Shape) (ts : List (Tree α)) :
    mapAll f (shape.apply ts) = shape.apply (mapAll f ts) := by
  cases shape with
  | node l => rfl
  | nodeUnlessSingle l => match ts with
    | [] | [_] | _ :: _ :: _ => rfl
  | splice => rfl

end Tree

/-! ## Places do not matter -/

theorem upcoming_congr {w w' : List Lexeme} (h : w'.map Lexeme.bare = w.map Lexeme.bare)
    (after : TokenKind) : upcoming after w' = upcoming after w := by
  cases w with
  | nil =>
    obtain rfl := List.map_eq_nil_iff.mp h
    rfl
  | cons l w =>
    obtain ⟨l', w', rfl, hl, -⟩ := List.map_eq_cons_iff.mp h
    exact (Prod.mk.inj hl).1

/-- **The productions read the same of the same lexemes elsewhere.** -/
theorem Reads.elsewhere {after : TokenKind} {slots : List Slot} {w w' : List Lexeme}
    {ts : List (Tree Lexeme)} (h : Reads after slots w ts)
    (hw : w'.map Lexeme.bare = w.map Lexeme.bare) :
    ∃ ts', Reads after slots w' ts' ∧ Tree.mapAll Lexeme.bare ts' = Tree.mapAll Lexeme.bare ts := by
  induction h generalizing w' with
  | done =>
    obtain rfl := List.map_eq_nil_iff.mp hw
    exact ⟨[], .done, rfl⟩
  | keep hl _ ih =>
    obtain ⟨l', w', rfl, hl', hw'⟩ := List.map_eq_cons_iff.mp hw
    obtain ⟨ts', hr, hts⟩ := ih hw'
    refine ⟨.leaf l' :: ts', .keep ((Prod.mk.inj hl').1.trans hl) hr, ?_⟩
    rw [Tree.mapAll, Tree.mapAll, hts, Tree.map, Tree.map, hl']
  | drop hl _ ih =>
    obtain ⟨l', w', rfl, hl', hw'⟩ := List.map_eq_cons_iff.mp hw
    obtain ⟨ts', hr, hts⟩ := ih hw'
    exact ⟨ts', .drop ((Prod.mk.inj hl').1.trans hl) hr, hts⟩
  | absent hn _ ih =>
    obtain ⟨ts', hr, hts⟩ := ih hw
    refine ⟨.absent :: ts', .absent (by rwa [upcoming_congr hw]) hr, ?_⟩
    rw [Tree.mapAll, Tree.mapAll, hts]
  | phrase hp _ _ ihin ih =>
    rw [List.map_append] at hw
    obtain ⟨u', v', rfl, hu, hv⟩ := List.map_eq_append_iff.mp hw
    obtain ⟨us', hin, hus⟩ := ihin hu
    obtain ⟨ts', hr, hts⟩ := ih hv
    refine ⟨_, .phrase hp (by rwa [upcoming_congr hv]) hr, ?_⟩
    rw [Tree.mapAll_append, Tree.mapAll_append, Tree.mapAll_apply, Tree.mapAll_apply, hus, hts]

/-- Where each lexeme is changed but not its kind, so are the leaves of the trees. -/
theorem Reads.map {f : Lexeme → Lexeme} (hf : ∀ l, (f l).kind = l.kind) {after : TokenKind}
    {slots : List Slot} {w : List Lexeme} {ts : List (Tree Lexeme)} (h : Reads after slots w ts) :
    Reads after slots (w.map f) (Tree.mapAll f ts) := by
  have hupcoming : ∀ after w, upcoming after (w.map f) = upcoming after w := by
    intro after w
    cases w with
    | nil => rfl
    | cons l w => exact hf l
  induction h with
  | done => exact .done
  | keep hl _ ih => exact .keep ((hf _).trans hl) ih
  | drop hl _ ih => exact .drop ((hf _).trans hl) ih
  | absent hn _ ih => exact .absent (by rwa [hupcoming]) ih
  | phrase hp _ _ ihin ih =>
    rw [List.map_append, Tree.mapAll_append, Tree.mapAll_apply]
    exact .phrase hp (by rwa [hupcoming]) ih

/-! ## The text -/

/-- Lexemes as they stand in a text with a space between any two of them. -/
def Lexeme.placed (here : Place) : List (TokenKind × String) → List Lexeme
  | [] => []
  | (k, t) :: ws =>
    ⟨k, t, here, here.afterAll t.toList⟩ :: placed ((here.afterAll t.toList).after ' ') ws

theorem Lexeme.map_bare_placed (here : Place) (ws : List (TokenKind × String)) :
    (placed here ws).map bare = ws := by
  induction ws generalizing here with
  | nil => rfl
  | cons w ws ih => rw [placed, List.map_cons, ih]; rfl

namespace Progress

open Automaton Stack

variable {p q : Progress} {l : Lexeme}

theorem run_nil (p : Progress) (here : Place) (skip : Nat) : p.run here skip [] = p.finish := by
  rw [run]

/-- The characters to be passed over are passed over. -/
theorem run_skip (p : Progress) (here : Place) (t rest : List Char) :
    p.run here t.length (t ++ rest) = p.run (here.afterAll t) 0 rest := by
  induction t generalizing here with
  | nil => rfl
  | cons c t ih =>
    rw [List.length_cons, List.cons_append, run, ih]
    rfl

/-- A lexeme that is found is read. -/
theorem run_token {here : Place} {k : TokenKind} {t rest : List Char} (hne : t ≠ [])
    (hread : Lexeme.read p.wanted (t ++ rest) = .token k t)
    (hfeed : p.feed ⟨k, .ofList t, here, here.afterAll t⟩ = .ok q) :
    p.run here 0 (t ++ rest) = q.run (here.afterAll t) 0 rest := by
  obtain ⟨c, t, rfl⟩ := List.exists_cons_of_ne_nil hne
  rw [List.cons_append] at hread ⊢
  rw [run, hread]
  simp only [hfeed]
  exact run_skip q (here.after c) t rest

theorem run_space (p : Progress) (here : Place) (rest : List Char) :
    p.run here 0 (' ' :: rest) = p.run (here.after ' ') 0 rest := by
  have hgap : Lexeme.read p.wanted (' ' :: rest) = .gap 1 := rfl
  rw [run, hgap]

/-- **Lexemes with spaces between them are read one by one.** -/
theorem run_spaced {ws : List (TokenKind × String)} {here : Place}
    (hws : ∀ w ∈ ws, Lexeme.Spells w.1 w.2.toList)
    (hfeed : p.feedAll (Lexeme.placed here ws) = .ok q) :
    p.run here 0 (" ".intercalate (ws.map Prod.snd)).toList = q.finish := by
  induction ws generalizing p here with
  | nil =>
    obtain rfl := Except.ok.inj hfeed
    exact run_nil p here 0
  | cons w ws ih =>
    obtain ⟨k, t⟩ := w
    rw [Lexeme.placed, feedAll_cons] at hfeed
    cases hl : p.feed ⟨k, t, here, here.afterAll t.toList⟩ with
    | error e => rw [hl] at hfeed; exact absurd hfeed (by simp [bind, Except.bind])
    | ok p₁ =>
      rw [hl] at hfeed
      have hspells : Lexeme.Spells k t.toList := hws (k, t) List.mem_cons_self
      have hwanted : k ∈ p.wanted := mem_wanted_of_feed hl
      have hlexeme : p.feed ⟨k, .ofList t.toList, here, here.afterAll t.toList⟩ = .ok p₁ := by
        rwa [String.ofList_toList]
      have hnext := ih (fun w hw => hws w (List.mem_cons_of_mem _ hw)) hfeed
      cases ws with
      | nil =>
        rw [List.map_cons, List.map_nil, String.intercalate_singleton] at *
        have hread := Lexeme.read_of_spells hspells hwanted Lexeme.atBlank_nil
        have hrun := run_token hspells.ne_nil hread hlexeme
        rw [List.append_nil] at hrun
        rw [hrun, ← hnext, run_nil]
        exact (run_nil p₁ _ 0).symm
      | cons w' ws =>
        rw [List.map_cons, List.map_cons, String.intercalate_cons_cons, String.toList_append,
          String.toList_append, List.append_assoc]
        have hread := Lexeme.read_of_spells hspells hwanted
          (Lexeme.atBlank_cons (c := ' ') rfl (" ".intercalate (w'.2 :: ws.map Prod.snd)).toList)
        rw [show " ".toList = [' '] from rfl, List.singleton_append,
          run_token hspells.ne_nil hread hlexeme, ← hnext]
        exact run_space p₁ _ _

end Progress

/-- **What the productions read is what comes out of its text**, for lexemes
that are well-spelled and have spaces between them. -/
theorem Reads.ofText_spaced {w : List Lexeme} {t : Tree Lexeme}
    (h : Reads .endOfText [.phrase .program] w [t])
    (hw : ∀ l ∈ w, Lexeme.Spells l.kind l.text.toList) :
    ∃ parsed, Parsed.ofText (" ".intercalate (w.map Lexeme.text)) = .ok parsed ∧
      parsed.lexemes.map Lexeme.bare = w.map Lexeme.bare ∧
      parsed.tree.map Lexeme.bare = t.map Lexeme.bare := by
  have hbare := Lexeme.map_bare_placed .start (w.map Lexeme.bare)
  obtain ⟨ts, hreads, hts⟩ := h.elsewhere hbare
  obtain ⟨children, rfl⟩ := hreads.exists_program
  let parsed : Parsed := ⟨.node (.rule .start) children, Lexeme.placed .start (w.map Lexeme.bare)⟩
  have hall : (Progress.start.feedAll parsed.lexemes >>= Progress.finish) = .ok parsed :=
    Progress.finish_feedAll_iff.mpr ⟨rfl, hreads⟩
  refine ⟨parsed, ?_, hbare, (List.cons.inj hts).1⟩
  cases hfeed : Progress.start.feedAll parsed.lexemes with
  | error e => rw [hfeed] at hall; exact absurd hall (by simp [bind, Except.bind])
  | ok q =>
    rw [hfeed] at hall
    have hspells : ∀ u ∈ w.map Lexeme.bare, Lexeme.Spells u.1 u.2.toList := by
      intro u hu
      obtain ⟨l, hl, rfl⟩ := List.mem_map.mp hu
      exact hw l hl
    have hrun := Progress.run_spaced hspells hfeed
    rw [List.map_map] at hrun
    exact hrun.trans hall

/-- **Every program that the rules make is read back, and in one way only.**
Take a derivation in which each `else` belongs to the nearest `if`, and write
its lexemes with spaces between them: the text is read as just these lexemes,
and its tree is that of the derivation. No other such derivation of the same
lexemes has another tree. -/
theorem Derivation.read_back (d : Derivation [.phrase .program])
    (helse : d.NearestElse .endOfText)
    (hw : ∀ l ∈ d.word, Lexeme.Spells l.kind l.text.toList) :
    (∃ parsed, Parsed.ofText (" ".intercalate (d.word.map Lexeme.text)) = .ok parsed ∧
      parsed.lexemes.map Lexeme.bare = d.word.map Lexeme.bare ∧
      [parsed.tree.map Lexeme.bare] = d.trees.map (Tree.map Lexeme.bare)) ∧
    ∀ e : Derivation [.phrase .program], e.NearestElse .endOfText → e.word = d.word →
      e.trees = d.trees := by
  have hreads := d.reads helse
  obtain ⟨children, htrees⟩ := hreads.exists_program
  constructor
  · rw [htrees] at hreads ⊢
    obtain ⟨parsed, htext, hlexemes, htree⟩ := hreads.ofText_spaced hw
    exact ⟨parsed, htext, hlexemes, congrArg (fun t => [t]) htree⟩
  · intro e he hword
    have hreads' := e.reads he
    rw [hword] at hreads'
    exact hreads'.tree_unique hreads

/-- The `else` belongs to the inner `if` here, as in the text that is read. -/
theorem Derivation.read_back_else : ∃ d : Derivation [.phrase .program],
    d.NearestElse .endOfText ∧
    d.word.map Lexeme.text =
      ["if", "(", "a", ")", "if", "(", "b", ")", "x1", ";", "else", "2.5", ";"] ∧
    ∃ parsed, Parsed.ofText "if ( a ) if ( b ) x1 ; else 2.5 ;" = .ok parsed ∧
      parsed.lexemes.map Lexeme.bare = d.word.map Lexeme.bare ∧
      [parsed.tree.map Lexeme.bare] = d.trees.map (Tree.map Lexeme.bare) := by
  have hread : (Parsed.ofText "if(a)if(b)x1;else 2.5;").toOption.map
        (fun parsed => parsed.lexemes.map Lexeme.bare) =
      some [(.ifWord, "if"), (.leftParen, "("), (.identifier, "a"), (.rightParen, ")"),
        (.ifWord, "if"), (.leftParen, "("), (.identifier, "b"), (.rightParen, ")"),
        (.identifier, "x1"), (.semicolon, ";"), (.elseWord, "else"), (.number, "2.5"),
        (.semicolon, ";")] := by decide +kernel
  cases hp : Parsed.ofText "if(a)if(b)x1;else 2.5;" with
  | error e => rw [hp] at hread; exact absurd hread (by simp [Except.toOption])
  | ok parsed =>
    rw [hp] at hread
    have hlexemes : parsed.lexemes.map Lexeme.bare = _ := Option.some.inj hread
    obtain ⟨inner, hu, d, hd, -, helse⟩ := (Parsed.reads hp).exists_derivation
    obtain rfl := hu.eq_of_plain (by decide)
    have hspells : ∀ l ∈ d.word, Lexeme.Spells l.kind l.text.toList := by
      have hall : ∀ u ∈ parsed.lexemes.map Lexeme.bare, Lexeme.Spells u.1 u.2.toList := by
        rw [hlexemes]
        decide +kernel
      intro l hl
      exact hall l.bare (List.mem_map_of_mem (hd ▸ hl))
    have htext : d.word.map Lexeme.text = (parsed.lexemes.map Lexeme.bare).map Prod.snd := by
      rw [hd, List.map_map]
      rfl
    rw [hlexemes] at htext
    obtain ⟨found, -⟩ := d.read_back helse hspells
    have hjoin : " ".intercalate (d.word.map Lexeme.text) =
        "if ( a ) if ( b ) x1 ; else 2.5 ;" := by
      rw [htext]
      decide +kernel
    rw [hjoin] at found
    exact ⟨d, helse, htext, found⟩

end LoxForms
