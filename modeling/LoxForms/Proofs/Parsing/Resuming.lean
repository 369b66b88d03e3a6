import LoxForms.Proofs.Automaton.Admitting
import LoxForms.Proofs.Grammar.Declarations
import LoxForms.Proofs.Lexeme.Continued
import LoxForms.Proofs.Parsing.Layout
/-!
# Going on after a program

A declaration can be read after others as well as before all others. After others
there is one frame more at the bottom of the stack, in the state `resumed`, and the
frames above are the same, since a symbol that comes first in a declaration leads from
this state to where it leads from the first one. This is so up to the end of the
declaration. Then one stack begins its row of declarations while the other one goes on
with its own, and they are in the same state again. `Resumes` is this relation between
two stacks, and `Resumes.finishes` says that it is kept.

What remains is the step from the end of a program to the first lexeme after it. The
productions that are finished before the end of a text are finished before any
declaration too (`Finishes.before_declaration`).
-/

namespace LoxForms

namespace Automaton

/-- The state after the declarations of a program. -/
def resumed : Nat := 1

/-- The states after the first declaration of all, and after a further one. -/
def begun : Nat := 2

def continued : Nat := 46

def beginList : Production := ⟨.declarations, [.phrase .declaration], .splice⟩

def continueList : Production :=
  ⟨.declarations, [.phrase .declarations, .phrase .declaration], .splice⟩

/-! ## What is checked of the table -/

/-- Where declarations lead, and that the same tokens are read there as before them. -/
theorem declarations_checked : goto? 0 .declarations = some resumed ∧
    goto? 0 .declaration = some begun ∧ goto? resumed .declaration = some continued ∧
    (state resumed).shifts = (state 0).shifts := by
  decide +kernel

theorem goto_declarations : goto? 0 .declarations = some resumed := declarations_checked.1

theorem goto_begun : goto? 0 .declaration = some begun := declarations_checked.2.1

theorem goto_continued : goto? resumed .declaration = some continued := declarations_checked.2.2.1

theorem step?_resumed (k : TokenKind) : step? resumed (.token k) = step? 0 (.token k) := by
  rw [step?_token, step?_token, declarations_checked.2.2.2]

/-- After a declaration there is nothing to do but to finish the row. -/
theorem rows_checked : (past begun).head? = some (.phrase .declaration) ∧
    complete? begun = some beginList ∧ complete? continued = some continueList ∧
    (state begun).shifts = [] ∧ (state continued).shifts = [] := by
  decide +kernel

theorem past_begun : (past begun).head? = some (.phrase .declaration) := rows_checked.1

theorem complete_begun : complete? begun = some beginList := rows_checked.2.1

theorem complete_continued : complete? continued = some continueList := rows_checked.2.2.1

theorem step?_begun (k : TokenKind) : step? begun (.token k) = none := by
  rw [step?_token, rows_checked.2.2.2.1, List.lookup_nil]

theorem step?_continued (k : TokenKind) : step? continued (.token k) = none := by
  rw [step?_token, rows_checked.2.2.2.2, List.lookup_nil]

theorem past_accepting : (past accepting).head? = some (.phrase .program) := by
  rw [past, if_pos rfl, List.head?_cons]

/-- A token does not lead to where a phrase leads. -/
theorem ne_of_step_token {r q target : Nat} {k : TokenKind} {n : Nonterminal}
    (h : step? r (.token k) = some target) (hq : (past q).head? = some (.phrase n)) :
    target ≠ q := by
  rintro rfl
  obtain ⟨rest, hpast, -⟩ := past_of_step h
  rw [hpast, List.head?_cons] at hq
  cases hq

/-- What can be finished within a declaration leads to the same states. -/
theorem goto?_resumed {n : Nonterminal} (hn : n ∉ [.program, .declarations, .declaration]) :
    goto? resumed n = goto? 0 n := by
  have all_same : ∀ n ∈ Nonterminal.all, n ∉ [.program, .declarations, .declaration] →
      goto? resumed n = goto? 0 n := by decide +kernel
  exact all_same n n.mem_all hn

/-- A row of declarations leads to other states after declarations than before them. -/
theorem walk?_resumed_ne {p : Production} {q : Nat} (hp : p ∈ Grammar.productions)
    (hn : p.phrase ∈ [.program, .declarations]) (h : walk? 0 p.atoms = some q) :
    walk? resumed p.atoms ≠ some q := by
  have all_apart : ∀ p ∈ Grammar.productions.toList, p.phrase ∈ [.program, .declarations] →
      walk? 0 p.atoms ≠ walk? resumed p.atoms := by decide +kernel
  rw [← h]
  exact (all_apart p (Array.mem_toList_iff.mpr hp) hn).symm

namespace Stack

variable {s s' t : Stack} {k : TokenKind} {p : Production} {q : Nat}

theorem reduce?_of_goto (h : goto? (top (s.drop p.arity)) p.phrase = some q) :
    reduce? s p = some (⟨q, p.shaped ((s.take p.arity).reverse.map Frame.trees)⟩ ::
      s.drop p.arity) := by
  simp only [reduce?, h, Option.map_some]

theorem top_append (hs : s ≠ []) : top (s ++ t) = top s := by
  obtain ⟨f, s, rfl⟩ := List.exists_cons_of_ne_nil hs
  rfl

/-! ## Before and after declarations -/

/-- The frame below a declaration that comes after others. -/
def below : Frame := ⟨resumed, []⟩

/-- Two stacks, the first where only so many declarations have been read, and the
second where others have been read before these. -/
inductive Resumes : Stack → Stack → Prop
  /-- In the first of the declarations. -/
  | within {s s' : Stack} : s ≠ [] → Alike (s ++ [below]) s' → Resumes s s'
  /-- At the end of the first of the declarations. -/
  | turning {s s' : Stack} : Alike [⟨begun, []⟩] s → Alike [⟨continued, []⟩, below] s' →
      Resumes s s'
  | merged {s s' : Stack} : Alike s s' → Resumes s s'

namespace Resumes

/-- The phrase of a production that takes all of a stack is no row of declarations, if
the states are the same after declarations. -/
theorem phrase_not_mem (hs : IsPath s) (hs' : IsPath s') (htop : top s' = top s)
    (hp : complete? (top s) = some p) (hdrop : top (s.drop p.arity) = 0)
    (hdrop' : top (s'.drop p.arity) = resumed) : p.phrase ∉ [.program, .declarations] := by
  intro hn
  have hwalk := hs.walk_of_complete hp
  have hwalk' := hs'.walk_of_complete (htop.symm ▸ hp)
  rw [hdrop] at hwalk
  rw [hdrop', htop] at hwalk'
  exact walk?_resumed_ne (mem_productions_of_complete hp) hn hwalk hwalk'

/-- **A production is finished in both stacks**, or one begins the row of declarations
where the other one goes on with its own. -/
theorem reduce (h : Resumes s s') (hs : IsPath s) (hs' : IsPath s')
    (ha : action? (top s) k = some (.reduce p)) (hr : reduce? s p = some t) :
    ∃ p' t', action? (top s') k = some (.reduce p') ∧ reduce? s' p' = some t' ∧ Resumes t t' := by
  obtain ⟨hstep, hp, hk⟩ := action?_eq_reduce.mp ha
  obtain ⟨q, hq, rfl⟩ := reduce?_eq_some hr
  cases h with
  | merged hlike =>
    obtain ⟨t', hr', hlike'⟩ := hlike.reduce hr
    exact ⟨p, t', hlike.top_eq ▸ ha, hr', .merged hlike'⟩
  | within hne hlike =>
    have htop : top s' = top s := by rw [← hlike.top_eq, top_append hne]
    have hdrop := hlike.drop p.arity
    rw [List.drop_append_of_le_length (hs.arity_le hp)] at hdrop
    rw [← htop] at ha
    by_cases hrest : s.drop p.arity = []
    · have hbottom : top (s'.drop p.arity) = resumed := by rw [← hdrop.top_eq, hrest]; rfl
      have hn := phrase_not_mem hs hs' htop hp (by rw [hrest]; rfl) hbottom
      rw [hrest] at hq hdrop ⊢
      by_cases hdeclaration : p.phrase = .declaration
      · rw [hdeclaration] at hq
        obtain rfl := Option.some.inj (hq.symm.trans goto_begun)
        have hq' : goto? (top (s'.drop p.arity)) p.phrase = some continued := by
          rw [hbottom, hdeclaration, goto_continued]
        exact ⟨p, _, ha, reduce?_of_goto hq', .turning rfl hdrop.cons⟩
      · have hq' : goto? (top (s'.drop p.arity)) p.phrase = some q := by
          rw [hbottom, goto?_resumed (by simp_all), ← hq]
          rfl
        exact ⟨p, _, ha, reduce?_of_goto hq', .within (List.cons_ne_nil _ _) hdrop.cons⟩
    · have hq' : goto? (top (s'.drop p.arity)) p.phrase = some q := by
        rw [← hdrop.top_eq, top_append hrest, hq]
      exact ⟨p, _, ha, reduce?_of_goto hq', .within (List.cons_ne_nil _ _) hdrop.cons⟩
  | turning hlike hlike' =>
    rw [← hlike.top_eq] at hp
    obtain rfl := Option.some.inj (hp.symm.trans complete_begun)
    have ha' : action? (top s') k = some (.reduce continueList) := by
      rw [← hlike'.top_eq]
      exact action?_eq_reduce.mpr ⟨step?_continued k, complete_continued, hk⟩
    have hdrop := hlike.drop beginList.arity
    have hdrop' := hlike'.drop continueList.arity
    rw [← hdrop.top_eq] at hq
    obtain rfl := Option.some.inj (hq.symm.trans goto_declarations)
    have hq' : goto? (top (s'.drop continueList.arity)) continueList.phrase = some resumed := by
      rw [← hdrop'.top_eq]
      exact goto_declarations
    have hrest : Alike (s.drop beginList.arity) (s'.drop continueList.arity) :=
      hdrop.symm.trans hdrop'
    exact ⟨continueList, _, ha', reduce?_of_goto hq', .merged hrest.cons⟩

/-- **What is finished in one stack is finished in the other.** -/
theorem finishes (hf : Finishes k s t) (h : Resumes s s') (hs : IsPath s) (hs' : IsPath s') :
    ∃ t', Finishes k s' t' ∧ Resumes t t' := by
  induction hf generalizing s' with
  | refl => exact ⟨s', .refl, h⟩
  | step ha hr _ ih =>
    obtain ⟨p', s₁, ha', hr', h₁⟩ := h.reduce hs hs' ha hr
    obtain ⟨t', hf', ht⟩ := ih h₁ (hs.reduce hr) (hs'.reduce hr')
    exact ⟨t', .step ha' hr' hf', ht⟩

/-- **A token that is read in one stack is read in the other**, with the same state. -/
theorem read (h : Resumes s s') (ts ts' : List (Tree Lexeme))
    (hq : step? (top s) (.token k) = some q) :
    step? (top s') (.token k) = some q ∧ Resumes (⟨q, ts⟩ :: s) (⟨q, ts'⟩ :: s') := by
  cases h with
  | within hne hlike =>
    rw [← hlike.top_eq, top_append hne]
    exact ⟨hq, .within (List.cons_ne_nil _ _) hlike.cons⟩
  | turning hlike _ =>
    rw [← hlike.top_eq] at hq
    exact nomatch hq.symm.trans (step?_begun k)
  | merged hlike =>
    rw [← hlike.top_eq]
    exact ⟨hq, .merged hlike.cons⟩

/-- Where a token has just been read, the same kinds are looked for. -/
theorem wanted_eq (h : Resumes s s') (hs : top s ≠ begun) : wanted (top s) = wanted (top s') := by
  cases h with
  | within hne hlike => rw [← hlike.top_eq, top_append hne]
  | turning hlike _ => exact absurd hlike.top_eq.symm hs
  | merged hlike => rw [hlike.top_eq]

end Resumes

/-! ## The first declaration after a program -/

/-- The kinds of token that a declaration can begin with can follow whatever a program
ends with. -/
theorem mem_follow_of_step {n : Nonterminal} (hn : n ≠ .program) (hend : .endOfText ∈ n.follow)
    (hk : step? 0 (.token k) = some q) : k ∈ n.follow ∧ k ≠ .elseWord := by
  have all_follow : ∀ n ∈ Nonterminal.all, n ≠ .program → .endOfText ∈ n.follow →
      ∀ e ∈ (state 0).shifts, e.1 ∈ n.follow ∧ e.1 ≠ .elseWord := by decide +kernel
  exact all_follow n n.mem_all hn hend _ (mem_of_shift hk)

/-- Only a program leads to where a text can end. -/
theorem eq_program_of_goto {n : Nonterminal} {r : Nat} (h : goto? r n = some accepting) :
    n = .program := by
  obtain ⟨rest, hpast, -⟩ := past_of_step (a := .phrase n) h
  have hprogram := past_accepting
  rw [hpast, List.head?_cons] at hprogram
  exact Atom.phrase.inj (Option.some.inj hprogram)

/-- Where a program is complete after something has been read, there is nothing else on
the stack than the row of its declarations. -/
theorem eq_of_complete_program (hs : IsPath s) (hne : s ≠ []) (hp : complete? (top s) = some p)
    (hn : p.phrase = .program) (hq : goto? (top (s.drop p.arity)) p.phrase = some q) :
    ∃ ts, s = [⟨resumed, ts⟩] := by
  have hdrop : s.drop p.arity = [] := (hs.drop p.arity).eq_nil (eq_zero_of_goto_program (hn ▸ hq))
  have hwalk := hs.walk_of_complete hp
  rw [hdrop] at hwalk
  rcases Grammar.program_of_mem (mem_productions_of_complete hp) hn with hslots | hslots
  · have hatoms : p.atoms = [] := by rw [Production.atoms, hslots]; rfl
    exact absurd (hs.eq_nil (eq_zero_of_complete hp hatoms)) hne
  · have hatoms : p.atoms = [.phrase .declarations] := by rw [Production.atoms, hslots]; rfl
    rw [hatoms, walk?_singleton] at hwalk
    rw [Production.arity, hatoms] at hdrop
    obtain ⟨f, s, rfl⟩ := List.exists_cons_of_ne_nil hne
    obtain rfl : s = [] := hdrop
    have hstate : f.state = resumed := Option.some.inj (hwalk.symm.trans goto_declarations)
    exact ⟨f.trees, by rw [← hstate]⟩

/-- **What is finished before the end of a text is finished before a declaration**, up
to the row of declarations. -/
theorem Finishes.before_declaration (hf : Finishes .endOfText s t) (ht : top t = accepting)
    (hs : IsPath s) (hne : s ≠ []) (htop : top s ≠ accepting)
    (hk : step? 0 (.token k) = some q) : ∃ ts, Finishes k s [⟨resumed, ts⟩] := by
  induction hf with
  | refl => exact absurd ht htop
  | @step s s' t p ha hr _ ih =>
    obtain ⟨-, hp, hend⟩ := action?_eq_reduce.mp ha
    obtain ⟨r, hgoto, rfl⟩ := reduce?_eq_some hr
    by_cases hn : p.phrase = .program
    · obtain ⟨ts, rfl⟩ := eq_of_complete_program hs hne hp hn hgoto
      exact ⟨ts, .refl⟩
    · obtain ⟨hfollow, helse⟩ := mem_follow_of_step hn hend hk
      have hnext : r ≠ accepting := by
        rintro rfl
        exact hn (eq_program_of_goto hgoto)
      obtain ⟨ts, hrest⟩ := ih ht (hs.reduce hr) (List.cons_ne_nil _ _) hnext
      exact ⟨ts, .step (action?_of_complete hp hfollow fun _ => helse) hr hrest⟩

/-- Nothing is finished before the first token of a text. -/
theorem Finishes.eq_nil (hf : Finishes k [] s) (hq : step? (top s) (.token k) = some q) :
    s = [] := by
  cases hf with
  | refl => rfl
  | step ha _ _ =>
    obtain ⟨-, hp, hk⟩ := action?_eq_reduce.mp ha
    rw [complete?_zero hp] at hk
    exact absurd (List.mem_singleton.mp hk) (ne_endOfText_of_step hq)

end Stack

/-- Whether the same kinds are looked for as before a program, and perhaps closing
kinds, if a program can end in a state. -/
def Source.reopens (source : Source) (q : Nat) : Bool :=
  q == accepting || !(source.wanted q).contains .endOfText ||
    ((source.wanted 0).all (source.wanted q).contains &&
      (source.wanted q).all fun k => (source.wanted 0).contains k || Lexeme.closing.contains k)

theorem reopens_of_lt : ∀ q < states.size, table.reopens q := by
  rw [← quickTable_eq]
  decide +kernel

theorem lt_size_of_action {q : Nat} {k : TokenKind} {a : Action} (h : action? q k = some a)
    (hq : q ≠ accepting) : q < states.size := by
  refine Nat.lt_of_not_le fun hle => ?_
  simp [action?, hq, lookahead, complete?, state_of_size_le hle] at h

/-- **Where a program can end, the same kinds are looked for as before it**, and closing
kinds. -/
theorem wanted_of_end {q : Nat} {a : Action} (h : action? q .endOfText = some a)
    (hq : q ≠ accepting) :
    wanted 0 ⊆ wanted q ∧ ∀ j ∈ wanted q, j ∈ wanted 0 ∨ j ∈ Lexeme.closing := by
  have hend : .endOfText ∈ wanted q := mem_wanted.mpr (by rw [h]; rfl)
  have hreopens := reopens_of_lt q (lt_size_of_action h hq)
  simp only [Source.reopens, beq_false_of_ne hq, Bool.false_or, Bool.and_eq_true, Bool.or_eq_true,
    Bool.not_eq_true', ← Bool.not_eq_true, List.all_eq_true, List.contains_iff_mem,
    mem_table_wanted, hend, not_true_eq_false, false_or] at hreopens
  exact hreopens

end Automaton

namespace Progress

open Automaton Stack

variable {p p' q : Progress} {l l' : Lexeme} {parsed : Parsed}

/-- Two runs, the first over some declarations, and the second over others before
these. Neither has finished anything since the last lexeme was read. -/
structure Resumes (p p' : Progress) : Prop where
  isPath : p.stack.IsPath
  isPath' : p'.stack.IsPath
  stack : Stack.Resumes p.stack p'.stack
  ne_begun : top p.stack ≠ begun

theorem Resumes.wanted_eq (h : p.Resumes p') : p.wanted = p'.wanted := h.stack.wanted_eq h.ne_begun

/-- **What is read in one run is read in the other.** -/
theorem Resumes.feed (h : p.Resumes p') (hl : l'.kind = l.kind) (hfeed : p.feed l = .ok q) :
    ∃ q', p'.feed l' = .ok q' ∧ q.Resumes q' := by
  have hpath := isPath_of_feed h.isPath hfeed
  obtain ⟨target, s, hs, rfl⟩ := settle_of_feed hfeed
  obtain ⟨hf, hstep⟩ := (settle_reads_iff h.isPath).mp hs
  obtain ⟨s', hf', hresumes⟩ := h.stack.finishes hf h.isPath h.isPath'
  obtain ⟨hstep', hnext⟩ := hresumes.read [.leaf l] [.leaf l'] hstep
  have hreads := (settle_reads_iff h.isPath').mpr ⟨hf', hstep'⟩
  have hfeed' : p'.feed l' = .ok ⟨⟨target, [.leaf l']⟩ :: s', l' :: p'.read⟩ := by
    rw [Progress.feed, hl, hreads]
  have hne := ne_of_step_token hstep past_begun
  exact ⟨_, hfeed', hpath, isPath_of_feed h.isPath' hfeed', hnext, hne⟩

/-- A run over a program that has come to its end. -/
structure AtEnd (p : Progress) : Prop where
  isPath : p.stack.IsPath
  ne_accepting : top p.stack ≠ accepting
  finish : ∃ parsed, p.finish = .ok parsed

theorem AtEnd.finishes (h : p.AtEnd) :
    ∃ t, Finishes .endOfText p.stack t ∧ top t = accepting := by
  obtain ⟨parsed, hfinish⟩ := h.finish
  obtain ⟨t, ht, -⟩ := settle_of_finish hfinish
  obtain ⟨hf, htop, -⟩ := (settle_ends_iff h.isPath).mp ht
  exact ⟨t, hf, htop⟩

/-- **The first lexeme of a program is read after another program.** -/
theorem AtEnd.feed (h : p'.AtEnd) (hl : l'.kind = l.kind) (hfeed : start.feed l = .ok q) :
    ∃ q', p'.feed l' = .ok q' ∧ q.Resumes q' := by
  have hpath := isPath_of_feed .nil hfeed
  by_cases hempty : p'.stack = []
  · have hresumes : start.Resumes p' :=
      ⟨.nil, h.isPath, .merged (by rw [hempty]; rfl), by decide⟩
    exact hresumes.feed hl hfeed
  obtain ⟨target, s, hs, rfl⟩ := settle_of_feed hfeed
  obtain ⟨hf, hstep⟩ := (settle_reads_iff .nil).mp hs
  obtain rfl := hf.eq_nil hstep
  obtain ⟨t, hend, htop⟩ := h.finishes
  obtain ⟨ts, hf'⟩ := hend.before_declaration htop h.isPath hempty h.ne_accepting hstep
  have hstep' : step? (top [⟨resumed, ts⟩]) (.token l.kind) = some target := by
    rw [← hstep]
    exact step?_resumed l.kind
  have hreads := (settle_reads_iff h.isPath).mpr ⟨hf', hstep'⟩
  have hfeed' : p'.feed l' = .ok ⟨[⟨target, [.leaf l']⟩, ⟨resumed, ts⟩], l' :: p'.read⟩ := by
    rw [Progress.feed, hl, hreads]
  have hne := ne_of_step_token hstep past_begun
  exact ⟨_, hfeed', hpath, isPath_of_feed h.isPath hfeed', .within (List.cons_ne_nil _ _) rfl,
    hne⟩

theorem AtEnd.wanted (h : p.AtEnd) : start.wanted ⊆ p.wanted ∧
    ∀ j ∈ p.wanted, j ∈ start.wanted ∨ j ∈ Lexeme.closing := by
  obtain ⟨t, hf, htop⟩ := h.finishes
  have hend : ∃ a, action? (top p.stack) .endOfText = some a := by
    cases hf with
    | refl => exact absurd htop h.ne_accepting
    | step ha _ _ => exact ⟨_, ha⟩
  obtain ⟨a, ha⟩ := hend
  exact wanted_of_end ha h.ne_accepting

/-- **The first lexeme of a program is found after another program**, unless it is an
`else`. -/
theorem AtEnd.read_eq {s : List Char} (h : p'.AtEnd) (hfeed : start.feed l = .ok q)
    (helse : l.text ≠ "else")
    (hread : Lexeme.read start.wanted s = .token l.kind l.text.toList) :
    Lexeme.read p'.wanted s = .token l.kind l.text.toList := by
  obtain ⟨hgap, htoken⟩ := Lexeme.read_eq_token.mp hread
  obtain ⟨hsub, hnew⟩ := h.wanted
  have hnew : ∀ j ∈ p'.wanted, j ∈ start.wanted ∨ j = .elseWord ∨ Lexeme.standsAlone j :=
    fun j hj => (hnew j hj).imp_right (Lexeme.standsAlone_of_closing j)
  have hall : ∀ j ∈ [TokenKind.identifier, .number, .string], j ∈ start.wanted := by
    decide +kernel
  have hspelling : TokenKind.elseWord.spelling? ≠ some l.text.toList := by
    intro heq
    exact helse (String.toList_injective (Option.some.inj heq).symm)
  exact Lexeme.read_eq_token.mpr
    ⟨hgap, Lexeme.token?_among hsub hnew hall (mem_wanted_of_feed hfeed) hspelling htoken⟩

end Progress

end LoxForms
