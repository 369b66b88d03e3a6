import LoxForms.Proofs.Automaton.Items
import LoxForms.Proofs.Automaton.Soundness
import LoxForms.Proofs.Grammar.Sentences
/-!
# What has been read goes on to a sentence

Every frame of the stack stands for a symbol that makes what it has read
(`Stack.Spans`), and the state on top names a production that is being read.
Make the rest of that production, finish it, and go on with the stack that is
left: in the end there is a program (`Spans.exists_program`). So whatever has
been read, however wrong it may go on, is the beginning of a sentence.
-/

namespace LoxForms

/-- **What the productions read, they make.** -/
theorem Reads.makes {after : TokenKind} {slots : List Slot} {w : List Lexeme}
    {ts : List (Tree Lexeme)} (h : Reads after slots w ts) :
    Makes (slots.filterMap Slot.atom?) (w.map Lexeme.kind) := by
  induction h with
  | done => exact .done
  | keep hl _ ih | drop hl _ ih =>
    subst hl
    exact .token ih
  | absent _ _ ih => exact ih
  | phrase hp _ _ ihin ih =>
    rw [List.map_append]
    exact .phrase hp ihin ih

theorem Atom.Gives.makes {after : TokenKind} {a : Atom} {w : List Lexeme}
    {ts : List (Tree Lexeme)} (h : a.Gives after w ts) : Makes [a] (w.map Lexeme.kind) := by
  cases h with
  | token hl =>
    subst hl
    exact .token .done
  | phrase hreads => exact hreads.makes

namespace Automaton.Stack

/-- The frames stand for symbols, and these make the kinds that have been
read. -/
inductive Spans : Stack → List TokenKind → Prop
  | nil : Spans [] []
  | cons {f : Frame} {s : Stack} {a : Atom} {ks us : List TokenKind} :
      step? (top s) a = some f.state → Spans s ks → Makes [a] us → Spans (f :: s) (ks ++ us)

theorem Holds.spans {after : TokenKind} {s : Stack} {w : List Lexeme} (h : Holds after s w) :
    Spans s (w.map Lexeme.kind) := by
  induction h with
  | nil => exact .nil
  | cons hstep _ ha ih =>
    rw [List.map_append]
    exact .cons hstep ih ha.makes

namespace Spans

variable {s : Stack} {ks : List TokenKind}

theorem isPath (h : Spans s ks) : IsPath s := by
  induction h with
  | nil => exact .nil
  | cons hstep _ _ ih => exact .cons hstep ih

/-- The symbols that the state on top tells of make what has been read last. -/
theorem pop {as : List Atom} (h : Spans s ks) (has : as <+: past (top s)) :
    ∃ us vs, ks = us ++ vs ∧ Spans (s.drop as.length) us ∧ Makes as.reverse vs := by
  induction as generalizing s ks with
  | nil => exact ⟨ks, [], (List.append_nil ks).symm, h, .done⟩
  | cons a as ih =>
    cases h with
    | nil => exact absurd has not_prefix_past_zero
    | @cons f s b ks us hstep hs hb =>
      obtain ⟨rfl, has'⟩ := prefix_of_step hstep has
      obtain ⟨us', vs, rfl, hspans, hmakes⟩ := ih hs has'
      refine ⟨us', vs ++ us, List.append_assoc .., hspans, ?_⟩
      rw [List.reverse_cons]
      exact hmakes.append hb

/-- Where a text can end, there is a program. -/
theorem of_accepting (h : Spans s ks) (htop : top s = accepting) : Makes [.phrase .program] ks := by
  cases h with
  | nil => exact absurd htop (by decide)
  | @cons f s a ks us hstep hs ha =>
    obtain ⟨rest, hpast, -⟩ := past_of_step hstep
    rw [show f.state = accepting from htop, past, if_pos rfl] at hpast
    obtain ⟨rfl, -⟩ := List.cons.inj hpast
    obtain rfl := hs.isPath.eq_nil (eq_zero_of_goto_program hstep)
    cases hs
    exact ha

/-- **Whatever has been read goes on to a program.** -/
theorem exists_program (h : Spans s ks) : ∃ more, Makes [.phrase .program] (ks ++ more) := by
  induction hn : effort s using Nat.strongRecOn generalizing s ks with
  | ind n ih =>
    subst hn
    by_cases hend : top s = accepting
    · exact ⟨[], by rw [List.append_nil]; exact h.of_accepting hend⟩
    · cases s with
      | nil =>
        cases h
        exact Makes.exists_word [.phrase .program]
      | cons f s =>
        obtain ⟨a, hstep⟩ : ∃ a, step? (top s) a = some f.state := by
          cases h with
          | cons hstep _ _ => exact ⟨_, hstep⟩
        obtain ⟨p, n, hitem, hn, hp, hpast, hrank⟩ := item_of_step hstep hend
        obtain ⟨q, hgoto⟩ := h.isPath.exists_goto hitem hn hpast
        have hlen : (p.atoms.take (n + 1)).length = n + 1 := List.length_take_of_le hn
        have hprefix : (p.atoms.take (n + 1)).reverse <+: past (top (f :: s)) :=
          ⟨[], by rw [List.append_nil, top, hpast]⟩
        have hframes := h.isPath.length_past_le
        rw [top, hpast, List.length_reverse, hlen] at hframes
        have heffort : effort (⟨q, []⟩ :: (f :: s).drop (n + 1)) < effort (f :: s) :=
          effort_lt_of_goto hframes hgoto hrank
        -- what has been read of the production, and something for the rest of it
        obtain ⟨us, vs, rfl, hspans, hvs⟩ := h.pop hprefix
        rw [List.length_reverse, hlen] at hspans
        rw [List.reverse_reverse] at hvs
        obtain ⟨xs, hxs⟩ := Makes.exists_word (p.atoms.drop (n + 1))
        have hmakes := hvs.append hxs
        rw [List.take_append_drop] at hmakes
        have hnext : Spans (⟨q, []⟩ :: (f :: s).drop (n + 1)) (us ++ (vs ++ xs)) :=
          .cons (a := .phrase p.phrase) hgoto hspans (.production hp hmakes)
        obtain ⟨more, hmore⟩ := ih _ heffort hnext rfl
        refine ⟨xs ++ more, ?_⟩
        simpa only [List.append_assoc] using hmore

end Spans

end Automaton.Stack

end LoxForms
