import LoxForms.Proofs.Automaton.Completeness
import LoxForms.Proofs.Lexeme.Spelling
/-!
# Finding lexeme after lexeme

Reading a text comes to finding one lexeme after the other in it, and feeding
each of them to the automaton before the next is looked for. `Finds` forgets all
else: where the lexemes stand, and what is passed over between them.
`Progress.run_ends` says that every run finds some lexemes, and then ends in one
of three ways. Each of the lexemes looks as its kind says (`Parsed.found`).
-/

namespace LoxForms

/-- After a character, what is left of a text begins with the next one. -/
theorem Place.drop_after {text rest : List Char} {here : Place} {c : Char}
    (h : text.drop here.offset = c :: rest) : text.drop (here.after c).offset = rest := by
  rw [offset_after, ← List.drop_drop, h, List.drop_one, List.tail_cons]

namespace Progress

open Automaton Stack

variable {p q r : Progress} {l : Lexeme} {ls : List Lexeme} {parsed : Parsed}

/-- Lexemes that are found and read one after the other, each of them in some
text and of a kind that is looked for by then. -/
inductive Finds : Progress → List Lexeme → Progress → Prop
  | done {p : Progress} : Finds p [] p
  | next {p q r : Progress} {l : Lexeme} {ls : List Lexeme} {s : List Char} :
      Lexeme.read p.wanted s = .token l.kind l.text.toList → p.feed l = .ok q → Finds q ls r →
      Finds p (l :: ls) r

theorem read_of_feed (h : p.feed l = .ok q) : q.read = l :: p.read := by
  obtain ⟨_, _, -, rfl⟩ := settle_of_feed h
  rfl

/-- **What can be read is looked for.** -/
theorem mem_wanted_of_feed (h : p.feed l = .ok q) : l.kind ∈ p.wanted := by
  have haction : (action? (top p.stack) l.kind).isSome := by
    obtain ⟨target, stack, hs, -⟩ := settle_of_feed h
    obtain ⟨hf, hstep⟩ := finishes_of_settleWithin.1 _ hs
    cases hf with
    | refl => rw [action?_eq_shift.mpr hstep]; rfl
    | step ha _ _ => rw [ha]; rfl
  exact List.mem_filter.mpr ⟨l.kind.mem_byGrammarName, haction⟩

theorem Finds.feedAll (h : p.Finds ls q) : p.feedAll ls = .ok q := by
  induction h with
  | done => rfl
  | next _ hfeed _ ih => rw [feedAll_cons, hfeed]; exact ih

theorem Finds.read_eq (h : p.Finds ls q) : q.read = ls.reverse ++ p.read := by
  induction h with
  | done => rfl
  | next _ hfeed _ ih =>
    rw [ih, read_of_feed hfeed, List.reverse_cons, List.append_assoc]
    rfl

/-- What is found looks as its kind says. -/
theorem Finds.found (h : p.Finds ls q) : ∀ l ∈ ls, Lexeme.Found l.kind l.text.toList := by
  induction h with
  | done => exact List.forall_mem_nil _
  | next hread _ _ ih =>
    exact List.forall_mem_cons.mpr ⟨Lexeme.found_of_token? (Lexeme.read_eq_token.mp hread).2, ih⟩

/-- How the run over a text ends, after the last lexeme that is found in it. -/
inductive Ends (text : List Char) (p : Progress) : Except SyntaxError Parsed → Prop
  /-- There are no more characters. -/
  | finished : Ends text p p.finish
  /-- A lexeme of a kind that is looked for cannot be read. -/
  | misplaced {l : Lexeme} {e : SyntaxError} :
      Lexeme.read p.wanted (text.drop l.first.offset) = .token l.kind l.text.toList →
      p.feed l = .error e → Ends text p (.error e)
  /-- Nothing is found that is looked for. -/
  | nothing {here : Place} {c : Char} {rest : List Char} :
      text.drop here.offset = c :: rest → Lexeme.read p.wanted (c :: rest) = .nothing →
      Ends text p (.error (p.noToken here c rest))

/-- **A run finds some lexemes, and then it ends.** -/
theorem run_ends {text : List Char} (cs : List Char) :
    ∀ (p : Progress) (here : Place) (skip : Nat), text.drop here.offset = cs →
      ∃ ls q, p.Finds ls q ∧ q.Ends text (p.run here skip cs) := by
  induction cs with
  | nil =>
    intro p here skip _
    rw [run]
    exact ⟨[], p, .done, .finished⟩
  | cons c rest ih =>
    intro p here skip hplace
    have hnext : text.drop (here.after c).offset = rest := Place.drop_after hplace
    cases skip with
    | succ skip => exact ih p (here.after c) skip hnext
    | zero =>
      unfold run
      split
      · exact ih p (here.after c) _ hnext
      · rename_i k t hread
        have hlexeme : (⟨k, .ofList t, here, here.afterAll t⟩ : Lexeme).text.toList = t :=
          String.toList_ofList
        split
        · rename_i q hfeed
          obtain ⟨ls, r, hfinds, hends⟩ := ih q (here.after c) (t.length - 1) hnext
          exact ⟨_ :: ls, r, .next (by rw [hlexeme]; exact hread) hfeed hfinds, hends⟩
        · rename_i e hfeed
          exact ⟨[], p, .done, .misplaced (by rw [hlexeme, hplace]; exact hread) hfeed⟩
      · rename_i hread
        exact ⟨[], p, .done, .nothing hplace hread⟩

end Progress

open Progress

/-- **A text that is read is found lexeme after lexeme** up to its end. -/
theorem Parsed.finds {text : String} {parsed : Parsed} (h : Parsed.ofText text = .ok parsed) :
    ∃ q, start.Finds parsed.lexemes q ∧ q.finish = .ok parsed := by
  obtain ⟨ls, q, hfinds, hends⟩ :=
    run_ends text.toList start .start 0 List.drop_zero
  have hresult : start.run .start 0 text.toList = .ok parsed := h
  generalize start.run .start 0 text.toList = result at hends hresult
  cases hends with
  | finished =>
    have hlexemes : parsed.lexemes = q.read.reverse :=
      (((Sound.start.feedAll hfinds.feedAll).1).finish hresult).1
    rw [hfinds.read_eq, start, List.append_nil, List.reverse_reverse] at hlexemes
    exact ⟨q, hlexemes ▸ hfinds, hresult⟩
  | misplaced => exact absurd hresult (by simp)
  | nothing => exact absurd hresult (by simp)

/-- **The lexemes of a text look as their kinds say.** -/
theorem Parsed.found {text : String} {parsed : Parsed} (h : Parsed.ofText text = .ok parsed) :
    ∀ l ∈ parsed.lexemes, Lexeme.Found l.kind l.text.toList := by
  obtain ⟨q, hfinds, -⟩ := Parsed.finds h
  exact hfinds.found

end LoxForms
