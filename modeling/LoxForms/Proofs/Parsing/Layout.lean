import LoxForms.Proofs.Parsing.Spaced
/-!
# Layout does not matter

The same lexemes can stand in a text with other blanks and comments between
them. `LaidOut` says in which ways: a blank has to come after each lexeme, if
anything does, and there are no bounds on what follows the blank.

Two runs go along with each other then. Their stacks pass through the same
states (`Alike`), so the same kinds are looked for; and what has been found once
is found again where the same kinds are looked for (`Lexeme.read_again`).
-/

namespace LoxForms

/-! ## Gaps -/

/-- Blanks, and comments that end with their lines. -/
inductive IsGap : List Char → Prop
  | nil : IsGap []
  | blank {c : Char} {g : List Char} : Lexeme.isBlank c → IsGap g → IsGap (c :: g)
  | comment {body g : List Char} : '\n' ∉ body → IsGap g → IsGap ('/' :: '/' :: (body ++ '\n' :: g))

/-- A gap at the end of a text, where a comment can end with the text. -/
inductive IsLastGap : List Char → Prop
  | gap {g : List Char} : IsGap g → IsLastGap g
  | comment {g body : List Char} : IsGap g → '\n' ∉ body → IsLastGap (g ++ '/' :: '/' :: body)

/-- Spellings with gaps after them, each of which begins with a blank. Only the
one at the end can be empty. -/
inductive Spread : List String → List Char → Prop
  | last {t : String} {g : List Char} :
      IsLastGap g → Lexeme.AtBlank g → Spread [t] (t.toList ++ g)
  | next {t : String} {ts : List String} {g s : List Char} :
      IsGap g → g ≠ [] → Lexeme.AtBlank g → Spread ts s → Spread (t :: ts) (t.toList ++ (g ++ s))

/-- Spellings as they can stand in a text, after any gap. -/
inductive LaidOut : List String → List Char → Prop
  | blank {g : List Char} : IsLastGap g → LaidOut [] g
  | text {ts : List String} {g s : List Char} : IsGap g → Spread ts s → LaidOut ts (g ++ s)

namespace Lexeme

variable {rest : List Char}

theorem gap?_comment {body : List Char} (hbody : '\n' ∉ body) (hrest : ∀ c ∈ rest.head?, c = '\n') :
    gap? ('/' :: '/' :: body ++ rest) = some ('/' :: '/' :: body).length := by
  have hall : ∀ c ∈ body, (c != '\n') = true := by
    intro c hc
    refine bne_iff_ne.mpr ?_
    rintro rfl
    exact hbody hc
  have htake : (body ++ rest).takeWhile (· != '\n') = body := by
    rw [List.takeWhile_append_of_pos hall]
    cases rest with
    | nil => simp
    | cons c rest =>
      obtain rfl := hrest c rfl
      simp
  rw [List.cons_append, List.cons_append, gap?, htake, List.length_cons, List.length_cons]
  congr 1
  omega

end Lexeme

namespace Progress

open Automaton Stack Lexeme

variable {p p' q : Progress} {l l' : Lexeme} {ls : List Lexeme}

/-- A gap that is found is passed over. -/
theorem run_gap (p : Progress) (here : Place) {g rest : List Char} (hne : g ≠ [])
    (hgap : gap? (g ++ rest) = some g.length) :
    p.run here 0 (g ++ rest) = p.run (here.afterAll g) 0 rest := by
  obtain ⟨c, g, rfl⟩ := List.exists_cons_of_ne_nil hne
  have hread : Lexeme.read p.wanted (c :: (g ++ rest)) = .gap (g.length + 1) := by
    rw [List.cons_append] at hgap
    rw [Lexeme.read, hgap, List.length_cons]
  rw [List.cons_append, run, hread]
  exact run_skip p (here.after c) g rest

/-- **A gap is passed over.** -/
theorem run_isGap {g : List Char} (h : IsGap g) (p : Progress) (rest : List Char) :
    ∀ here, ∃ there, p.run here 0 (g ++ rest) = p.run there 0 rest := by
  induction h with
  | nil =>
    intro here
    exact ⟨here, rfl⟩
  | @blank c g hc _ ih =>
    intro here
    have hfirst : p.run here 0 (c :: (g ++ rest)) = p.run (here.afterAll [c]) 0 (g ++ rest) :=
      run_gap p here (List.cons_ne_nil c []) (gap?_of_isBlank hc)
    obtain ⟨there, hnext⟩ := ih (here.afterAll [c])
    exact ⟨there, hfirst.trans hnext⟩
  | @comment body g hbody _ ih =>
    intro here
    have hcomment : gap? ('/' :: '/' :: body ++ '\n' :: (g ++ rest)) =
        some ('/' :: '/' :: body).length := gap?_comment hbody (by simp)
    have hfirst := run_gap p here (List.cons_ne_nil _ _) hcomment
    -- the end of the line is a blank by itself
    have hline : p.run (here.afterAll ('/' :: '/' :: body)) 0 ('\n' :: (g ++ rest)) =
        p.run ((here.afterAll ('/' :: '/' :: body)).afterAll ['\n']) 0 (g ++ rest) :=
      run_gap p _ (List.cons_ne_nil '\n' []) (gap?_of_isBlank (by decide))
    obtain ⟨there, hnext⟩ := ih ((here.afterAll ('/' :: '/' :: body)).afterAll ['\n'])
    refine ⟨there, ?_⟩
    rw [← hnext, ← hline]
    simpa using hfirst

theorem run_isLastGap {g : List Char} (h : IsLastGap g) (here : Place) :
    p.run here 0 g = p.finish := by
  cases h with
  | gap hg =>
    obtain ⟨there, hrun⟩ := run_isGap hg p [] here
    rw [← List.append_nil g, hrun, run_nil]
  | @comment g body hg hbody =>
    obtain ⟨there, hrun⟩ := run_isGap hg p ('/' :: '/' :: body) here
    have hcomment : gap? ('/' :: '/' :: body ++ []) = some ('/' :: '/' :: body).length :=
      gap?_comment hbody (by simp)
    have hlast := run_gap p there (List.cons_ne_nil _ _) hcomment
    rw [List.append_nil] at hlast
    rw [hrun, hlast, run_nil]

end Progress

/-! ## Stacks that have passed through the same states -/

namespace Automaton.Stack

/-- The states are the same, whatever the trees are. -/
def Alike (s s' : Stack) : Prop := s.map Frame.state = s'.map Frame.state

namespace Alike

variable {s s' t : Stack} {k : TokenKind} {p : Production}

theorem top_eq (h : Alike s s') : top s = top s' := by
  cases s with
  | nil =>
    obtain rfl := List.map_eq_nil_iff.mp h.symm
    rfl
  | cons f s =>
    obtain ⟨f', s', rfl, hf, -⟩ := List.map_eq_cons_iff.mp h.symm
    exact hf.symm

theorem drop (h : Alike s s') (n : Nat) : Alike (s.drop n) (s'.drop n) := by
  unfold Alike
  rw [List.map_drop, List.map_drop, h]

theorem cons {q : Nat} {ts ts' : List (Tree Lexeme)} (h : Alike s s') :
    Alike (⟨q, ts⟩ :: s) (⟨q, ts'⟩ :: s') := congrArg (q :: ·) h

theorem isPath (h : Alike s s') (hs : IsPath s) : IsPath s' := by
  induction hs generalizing s' with
  | nil =>
    obtain rfl := List.map_eq_nil_iff.mp h.symm
    exact .nil
  | @cons f s a hstep _ ih =>
    obtain ⟨f', s', rfl, hf, hs⟩ := List.map_eq_cons_iff.mp h.symm
    rw [top_eq hs.symm, ← hf] at hstep
    exact .cons hstep (ih hs.symm)

theorem reduce (h : Alike s s') (hr : reduce? s p = some t) :
    ∃ t', reduce? s' p = some t' ∧ Alike t t' := by
  obtain ⟨q, hq, rfl⟩ := reduce?_eq_some hr
  have hdrop := h.drop p.arity
  refine ⟨⟨q, p.shaped ((s'.take p.arity).reverse.map Frame.trees)⟩ :: s'.drop p.arity, ?_,
    hdrop.cons⟩
  simp only [reduce?, ← hdrop.top_eq, hq, Option.map_some]

theorem finishes (hf : Finishes k s t) :
    ∀ {s'}, Alike s s' → ∃ t', Finishes k s' t' ∧ Alike t t' := by
  induction hf with
  | refl =>
    intro s' h
    exact ⟨s', .refl, h⟩
  | step ha hr _ ih =>
    intro s' h
    obtain ⟨s₁, hr', h₁⟩ := h.reduce hr
    obtain ⟨t', hf', ht⟩ := ih h₁
    exact ⟨t', .step (h.top_eq ▸ ha) hr' hf', ht⟩

end Alike

end Automaton.Stack

namespace Progress

open Automaton Stack

/-- The same states, and the same lexemes up to their places. -/
structure Alike (p p' : Progress) : Prop where
  stack : Stack.Alike p.stack p'.stack
  read : p'.read.map Lexeme.bare = p.read.map Lexeme.bare

variable {p p' q : Progress} {l l' : Lexeme} {ls : List Lexeme} {parsed : Parsed}

theorem Alike.refl (p : Progress) : p.Alike p := ⟨Eq.refl _, Eq.refl _⟩

theorem Alike.symm (h : p.Alike p') : p'.Alike p := ⟨h.stack.symm, h.read.symm⟩

theorem Alike.wanted_eq (h : p.Alike p') : p.wanted = p'.wanted :=
  congrArg Automaton.wanted h.stack.top_eq

theorem Alike.feed (h : p.Alike p') (hp : p.stack.IsPath) (hl : l'.bare = l.bare)
    (hfeed : p.feed l = .ok q) : ∃ q', p'.feed l' = .ok q' ∧ q.Alike q' := by
  obtain ⟨hkind, -⟩ := Prod.mk.inj hl
  obtain ⟨target, s, hs, rfl⟩ := settle_of_feed hfeed
  obtain ⟨hf, hstep⟩ := (settle_reads_iff hp).mp hs
  obtain ⟨s', hf', hs'⟩ := Stack.Alike.finishes hf h.stack
  rw [hs'.top_eq] at hstep
  have hreads := (settle_reads_iff (h.stack.isPath hp)).mpr ⟨hf', hstep⟩
  refine ⟨⟨⟨target, [.leaf l']⟩ :: s', l' :: p'.read⟩, ?_, hs'.cons, ?_⟩
  · rw [Progress.feed, hkind, hreads]
  · rw [List.map_cons, List.map_cons, hl, h.read]

theorem Alike.finish (h : p.Alike p') (hp : p.stack.IsPath) (hfinish : p.finish = .ok parsed) :
    ∃ parsed', p'.finish = .ok parsed' ∧
      parsed'.lexemes.map Lexeme.bare = parsed.lexemes.map Lexeme.bare := by
  obtain ⟨s, hs, rfl⟩ := settle_of_finish hfinish
  obtain ⟨hf, htop, -⟩ := (settle_ends_iff hp).mp hs
  obtain ⟨s', hf', hs'⟩ := Stack.Alike.finishes hf h.stack
  rw [hs'.top_eq] at htop
  have hends := (settle_ends_iff (h.stack.isPath hp)).mpr ⟨hf', htop, rfl⟩
  refine ⟨_, by rw [Progress.finish, hends], ?_⟩
  rw [List.map_reverse, List.map_reverse, h.read]

theorem isPath_of_feed (hp : p.stack.IsPath) (h : p.feed l = .ok q) : q.stack.IsPath := by
  obtain ⟨target, s, hs, rfl⟩ := settle_of_feed h
  obtain ⟨hf, hstep⟩ := (settle_reads_iff hp).mp hs
  exact .cons hstep (hf.isPath hp)

/-- **What has been found is found again** in a text that is laid out in another
way, one lexeme after the other and up to its end. -/
theorem Finds.spread (h : p.Finds ls q) : ∀ {p' : Progress} {cs : List Char} (here : Place),
    p.stack.IsPath → p.Alike p' → Spread (ls.map Lexeme.text) cs →
    ∃ q', q.stack.IsPath ∧ q.Alike q' ∧ p'.run here 0 cs = q'.finish := by
  induction h with
  | done =>
    intro p' cs here _ _ hs
    exact nomatch hs
  | @next p p₁ q l ls s hread hfeed hrest ih =>
    intro p' cs here hp ha hs
    have hbare : ∀ first past : Place,
        (⟨l.kind, .ofList l.text.toList, first, past⟩ : Lexeme).bare = l.bare := by
      intro first past
      rw [String.ofList_toList]
      rfl
    have hne : l.text.toList ≠ [] := (Lexeme.token?_front (Lexeme.read_eq_token.mp hread).2).1
    have hp₁ := isPath_of_feed hp hfeed
    obtain ⟨p₁', hfeed', ha₁⟩ :=
      ha.feed hp (hbare here (here.afterAll l.text.toList)) hfeed
    -- the lexeme is found where the same kinds are looked for, and read in the same state
    have hagain : ∀ {rest : List Char}, Lexeme.AtBlank rest →
        p'.run here 0 (l.text.toList ++ rest) =
          p₁'.run (here.afterAll l.text.toList) 0 rest := by
      intro rest hr
      rw [ha.wanted_eq] at hread
      exact run_token hne (Lexeme.read_again hread hr) hfeed'
    generalize hts : (l :: ls).map Lexeme.text = ts at hs
    cases hs with
    | @last t g hg hblank =>
      obtain ⟨rfl, hls⟩ := List.cons.inj hts
      obtain rfl := List.map_eq_nil_iff.mp hls
      cases hrest
      exact ⟨p₁', hp₁, ha₁, (hagain hblank).trans (run_isLastGap hg _)⟩
    | @next t ts g s' hg hne' hblank hs' =>
      obtain ⟨rfl, rfl⟩ := List.cons.inj hts
      have hblank' : Lexeme.AtBlank (g ++ s') := by
        obtain ⟨c, g, rfl⟩ := List.exists_cons_of_ne_nil hne'
        exact hblank
      obtain ⟨there, hgap⟩ := run_isGap hg p₁' s' (here.afterAll l.text.toList)
      obtain ⟨q', hq, haq, hrun⟩ := ih there hp₁ ha₁ hs'
      exact ⟨q', hq, haq, (hagain hblank').trans (hgap.trans hrun)⟩

theorem Finds.laidOut {cs : List Char} (h : start.Finds ls q)
    (hl : LaidOut (ls.map Lexeme.text) cs) :
    ∃ q', q.stack.IsPath ∧ q.Alike q' ∧ start.run .start 0 cs = q'.finish := by
  generalize hts : ls.map Lexeme.text = ts at hl
  cases hl with
  | blank hg =>
    obtain rfl := List.map_eq_nil_iff.mp hts
    cases h
    exact ⟨start, .nil, .refl start, run_isLastGap hg .start⟩
  | @text _ g s hg hs =>
    subst hts
    obtain ⟨there, hgap⟩ := run_isGap hg start s .start
    obtain ⟨q', hq, ha, hrun⟩ := h.spread there .nil (.refl start) hs
    exact ⟨q', hq, ha, hgap.trans hrun⟩

end Progress

/-- **A text that is read is also read if it is laid out in another way**: as the
same lexemes, and with the same tree, up to their places. -/
theorem Parsed.laidOut {text text' : String} {parsed : Parsed}
    (h : Parsed.ofText text = .ok parsed)
    (hl : LaidOut (parsed.lexemes.map Lexeme.text) text'.toList) :
    ∃ parsed', Parsed.ofText text' = .ok parsed' ∧
      parsed'.lexemes.map Lexeme.bare = parsed.lexemes.map Lexeme.bare ∧
      parsed'.tree.map Lexeme.bare = parsed.tree.map Lexeme.bare := by
  obtain ⟨q, hfinds, hfinish⟩ := Parsed.finds h
  obtain ⟨q', hpath, hlike, hrun⟩ := hfinds.laidOut hl
  obtain ⟨parsed', hfinish', hlexemes⟩ := hlike.finish hpath hfinish
  have htext' : Parsed.ofText text' = .ok parsed' := hrun.trans hfinish'
  -- the productions read one tree only of the lexemes of the second text
  obtain ⟨ts, hreads, hts⟩ := (Parsed.reads h).elsewhere hlexemes
  obtain rfl := hreads.tree_unique (Parsed.reads htext')
  exact ⟨parsed', htext', hlexemes, (List.cons.inj hts).1⟩

end LoxForms
