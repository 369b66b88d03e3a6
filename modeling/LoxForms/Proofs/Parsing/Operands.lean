import LoxForms.Proofs.Automaton.Items
import LoxForms.Proofs.Building.Lookups
import LoxForms.Proofs.Lexeme.Words
import LoxForms.Proofs.Parsing.Finding
/-!
# Variables are not spelled as other operands

Where a variable can be looked up, the words that begin an operand are looked for
as well: `true`, `false`, `nil`, `this` and `super`. So no variable that is looked
up is spelled as one of them (`Parsed.lookups_free`), although a name can be, where
it is declared or belongs to an object.
-/

namespace LoxForms

open Automaton

/-- The reserved words that an operand can begin with. -/
def TokenKind.operandWords : List TokenKind := [falseWord, nilWord, superWord, thisWord, trueWord]

/-- To be spelled otherwise than the words that begin an operand. -/
def Lexeme.Free (l : Lexeme) : Prop :=
  ∀ k ∈ TokenKind.operandWords, k.spelling? ≠ some l.text.toList

namespace Automaton

/-! ## Where variables are looked up -/

/-- The state in which a variable has been read that is looked up. -/
def lookupState : Nat := 42

/-- What is checked of the table: where a variable can be looked up, so can the
words be read that begin an operand, and nowhere else is the production of such a
variable complete. -/
theorem lookups_checked : (table.past lookupState).head? = some (.token .identifier) ∧
    ∀ q < states.size,
      ((table.row q).shifts.lookup .identifier = some lookupState →
        ∀ k ∈ TokenKind.operandWords, ((table.row q).shifts.lookup k).isSome) ∧
      (table.complete? q = some Grammar.lookup → q = lookupState) := by
  rw [← quickTable_eq]
  decide +kernel

theorem past_lookupState : (past lookupState).head? = some (.token .identifier) := by
  rw [← table_past]
  exact lookups_checked.1

/-- Whatever a variable can come after, the words that begin an operand can; but
for a list of methods. -/
theorem operandWords_follow (n : Nonterminal) (hn : n ≠ .methods) (h : .identifier ∈ n.follow) :
    ∀ k ∈ TokenKind.operandWords, k ∈ n.follow := by
  have all_follow : ∀ n ∈ Nonterminal.all, n ≠ .methods → .identifier ∈ n.follow →
      ∀ k ∈ TokenKind.operandWords, k ∈ n.follow := by decide
  exact all_follow n n.mem_all hn h

theorem Grammar.last_of_methods {p : Production} (hp : p ∈ Grammar.productions)
    (h : p.phrase = .methods) : p.atoms.getLast? = some (.phrase .function) := by
  have all_last : ∀ p ∈ Grammar.productions.toList,
      p.phrase = .methods → p.atoms.getLast? = some (.phrase .function) := by decide +kernel
  exact all_last p (Array.mem_toList_iff.mpr hp) h

/-- To be a state in which no list of methods is complete. -/
def Ready (q : Nat) : Prop := ∀ p, complete? q = some p → p.phrase ≠ .methods

/-- Right after a token no list of methods is complete. -/
theorem ready_of_step {q r : Nat} {k : TokenKind} (h : step? q (.token k) = some r) : Ready r := by
  intro p hp hmethods
  obtain ⟨rest, hpast, -⟩ := past_of_step h
  obtain ⟨more, hmore⟩ := past_of_complete hp
  have hlast := Grammar.last_of_methods (mem_productions_of_complete hp) hmethods
  rw [List.getLast?_eq_head?_reverse] at hlast
  cases hrev : p.atoms.reverse with
  | nil =>
    rw [hrev] at hlast
    exact absurd hlast (by simp)
  | cons a as =>
    rw [hrev, List.head?_cons, Option.some.injEq] at hlast
    rw [hrev, hpast, hlast] at hmore
    exact absurd (List.cons.inj hmore).1 (by simp)

theorem ready_zero : Ready 0 := by
  intro p hp
  rw [complete?_zero hp]
  decide

/-- **Where a variable is about to be looked up, the words that begin an operand
are looked for.** -/
theorem mem_wanted_of_action {q : Nat} (hq : Ready q) (h : (action? q .identifier).isSome)
    (hshift : ∀ r, action? q .identifier = some (.shift r) → r = lookupState) :
    ∀ k ∈ TokenKind.operandWords, k ∈ wanted q := by
  intro k hk
  refine List.mem_filter.mpr ⟨k.mem_byGrammarName, ?_⟩
  obtain ⟨action, ha⟩ := Option.isSome_iff_exists.mp h
  cases action with
  | shift r =>
    obtain rfl := hshift r ha
    have hstep := action?_eq_shift.mp ha
    have hlookup := (lookups_checked.2 q (lt_size_of_step hstep)).1 hstep k hk
    obtain ⟨r', hr'⟩ := Option.isSome_iff_exists.mp hlookup
    rw [action?_eq_shift.mpr hr']
    rfl
  | accept => exact absurd (action?_eq_accept.mp ha).2 (by decide)
  | reduce p =>
    obtain ⟨-, hp, hfollow⟩ := action?_eq_reduce.mp ha
    have hmem := operandWords_follow p.phrase (hq p hp) hfollow k hk
    cases hstep : step? q (.token k) with
    | some r => rw [action?_eq_shift.mpr hstep]; rfl
    | none => rw [action?_eq_reduce.mpr ⟨hstep, hp, hmem⟩]; rfl

namespace Stack

/-! ## What the frames hold -/

/-- The variables in a frame are free, and so is the token that is about to
become one. -/
def Frame.Free (f : Frame) : Prop :=
  (f.state = lookupState → ∀ l ∈ Tree.leavesOfAll f.trees, l.Free) ∧
    ∀ l ∈ Tree.lookupsOfAll f.trees, l.Free

variable {s s' : Stack} {p : Production} {k : TokenKind}

/-- The variables of a production's children are those of its symbols. -/
theorem mem_lookups_of_children {α : Type} {slots : List Slot} {tss : List (List (Tree α))} {a : α}
    (h : a ∈ Tree.lookupsOfAll (Production.children slots tss)) :
    ∃ ts ∈ tss, a ∈ Tree.lookupsOfAll ts := by
  induction slots generalizing tss with
  | nil => exact absurd h (by simp [Production.children, Tree.lookupsOfAll])
  | cons slot slots ih =>
    have hcons : ∀ ts tss', a ∈ Tree.lookupsOfAll (ts ++ Production.children slots tss') →
        ∃ us ∈ ts :: tss', a ∈ Tree.lookupsOfAll us := by
      intro ts tss' hmem
      rw [Tree.lookupsOfAll_append, List.mem_append] at hmem
      rcases hmem with hmem | hmem
      · exact ⟨ts, List.mem_cons_self, hmem⟩
      · obtain ⟨us, hus, ha⟩ := ih hmem
        exact ⟨us, List.mem_cons_of_mem _ hus, ha⟩
    cases slot with
    | absent =>
      rw [Production.children, Tree.lookupsOfAll, Tree.lookups, List.nil_append] at h
      exact ih h
    | keep | phrase =>
      cases tss with
      | nil => exact absurd h (by simp [Production.children, Tree.lookupsOfAll])
      | cons ts tss => exact hcons ts tss h
    | drop =>
      cases tss with
      | nil => exact absurd h (by simp [Production.children, Tree.lookupsOfAll])
      | cons ts tss =>
        obtain ⟨us, hus, ha⟩ := ih h
        exact ⟨us, List.mem_cons_of_mem _ hus, ha⟩

/-- **Finishing a production keeps the variables free.** -/
theorem free_of_reduce (hs : ∀ f ∈ s, Frame.Free f) (hp : complete? (top s) = some p)
    (hr : reduce? s p = some s') : ∀ f ∈ s', Frame.Free f := by
  obtain ⟨q, hq, rfl⟩ := reduce?_eq_some hr
  have hstate : q ≠ lookupState := by
    rintro rfl
    obtain ⟨rest, hpast, -⟩ := past_of_step (a := .phrase p.phrase) hq
    have hhead := past_lookupState
    rw [hpast] at hhead
    exact absurd hhead (by simp)
  refine List.forall_mem_cons.mpr ⟨⟨fun h => absurd h hstate, ?_⟩,
    fun f hf => hs f (List.mem_of_mem_drop hf)⟩
  intro l hl
  by_cases hne : p = Grammar.lookup
  · -- the token that is finished has been read in the state for it
    subst hne
    have htop := (lookups_checked.2 _ (lt_size_of_complete hp)).2 hp
    cases s with
    | nil => exact absurd htop (by decide)
    | cons f s =>
      have hleaves : Tree.lookupsOfAll (Grammar.lookup.shaped [f.trees]) =
          Tree.leavesOfAll f.trees := by
        show Tree.leavesOfAll (f.trees ++ []) ++ [] = _
        rw [List.append_nil, List.append_nil]
      have hmem : l ∈ Tree.lookupsOfAll (Grammar.lookup.shaped [f.trees]) := hl
      rw [hleaves] at hmem
      exact (hs f List.mem_cons_self).1 htop l hmem
  · change l ∈ Tree.lookupsOfAll (p.shape.apply _) at hl
    rw [Shape.lookupsOfAll_apply
      (Grammar.isLookup_of_mem (mem_productions_of_complete hp) hne)] at hl
    obtain ⟨ts, hts, hl⟩ := mem_lookups_of_children hl
    obtain ⟨f, hf, rfl⟩ := List.mem_map.mp hts
    exact (hs f (List.mem_of_mem_take (List.mem_reverse.mp hf))).2 l hl

theorem free_of_finishes (h : Finishes k s s') (hs : ∀ f ∈ s, Frame.Free f) :
    ∀ f ∈ s', Frame.Free f := by
  induction h with
  | refl => exact hs
  | step ha hr _ ih => exact ih (free_of_reduce hs (action?_eq_reduce.mp ha).2.1 hr)

end Stack

end Automaton

/-! ## Runs -/

namespace Progress

open Automaton.Stack

variable {p q : Progress} {l : Lexeme}

/-- The variables that have been read are free, and the next one will be. -/
structure Frees (p : Progress) : Prop where
  isPath : p.stack.IsPath
  ready : Ready p.stack.top
  free : ∀ f ∈ p.stack, Frame.Free f

theorem frees_start : start.Frees := ⟨.nil, ready_zero, List.forall_mem_nil _⟩

/-- **Reading a lexeme keeps the variables free.** -/
theorem Frees.feed {s : List Char} (h : p.Frees)
    (hread : Lexeme.read p.wanted s = .token l.kind l.text.toList) (hfeed : p.feed l = .ok q) :
    q.Frees := by
  obtain ⟨target, stack, hsettle, rfl⟩ := settle_of_feed hfeed
  obtain ⟨hfinishes, hstep⟩ := (settle_reads_iff h.isPath).mp hsettle
  have hfree : target = lookupState → l.Free := by
    rintro rfl
    obtain ⟨rest, hpast, -⟩ := past_of_step hstep
    have hkind := past_lookupState
    rw [hpast, List.head?_cons, Option.some.injEq, Atom.token.injEq] at hkind
    have haction : (action? p.stack.top .identifier).isSome ∧
        ∀ r, action? p.stack.top .identifier = some (.shift r) → r = lookupState := by
      rw [hkind] at hfinishes hstep
      cases hfinishes with
      | refl =>
        rw [action?_eq_shift.mpr hstep]
        exact ⟨rfl, fun r hr => (Action.shift.inj (Option.some.inj hr)).symm⟩
      | step ha _ _ =>
        rw [ha]
        exact ⟨rfl, fun r hr => absurd hr (by simp)⟩
    have hwanted := mem_wanted_of_action h.ready haction.1 haction.2
    have htoken := (Lexeme.read_eq_token.mp hread).2
    rw [hkind] at htoken
    intro k hk
    have hword : ∀ k ∈ TokenKind.operandWords, k ∈ TokenKind.words := by decide
    exact (Lexeme.token?_eq_identifier.mp htoken).2.2 k (hword k hk) (hwanted k hk)
  refine ⟨.cons hstep (hfinishes.isPath h.isPath), ready_of_step hstep,
    List.forall_mem_cons.mpr ⟨⟨fun htarget => ?_, by simp [Tree.lookupsOfAll, Tree.lookups]⟩,
      free_of_finishes hfinishes h.free⟩⟩
  simpa [Tree.leavesOfAll, Tree.leaves] using hfree htarget

theorem Finds.frees {ls : List Lexeme} (h : p.Finds ls q) (hp : p.Frees) : q.Frees := by
  induction h with
  | done => exact hp
  | next hread hfeed _ ih => exact ih (hp.feed hread hfeed)

/-- At the end the variables of the tree are those on the stack. -/
theorem Frees.finish {parsed : Parsed} (h : p.Frees) (hfinish : p.finish = .ok parsed) :
    ∀ l ∈ parsed.tree.lookups, l.Free := by
  obtain ⟨stack, hsettle, rfl⟩ := settle_of_finish hfinish
  have hfree := free_of_finishes ((settle_ends_iff h.isPath).mp hsettle).1 h.free
  intro l hl
  cases stack with
  | nil => exact absurd hl (by simp [Tree.lookups])
  | cons f stack =>
    cases htrees : f.trees with
    | nil => exact absurd hl (by simp [htrees, Tree.lookups])
    | cons t ts =>
      refine (hfree f List.mem_cons_self).2 l ?_
      rw [htrees, Tree.lookupsOfAll]
      refine List.mem_append_left _ ?_
      simpa [htrees] using hl

end Progress

/-- **No variable that is looked up is spelled as another operand begins.** -/
theorem Parsed.lookups_free {text : String} {parsed : Parsed}
    (h : Parsed.ofText text = .ok parsed) : ∀ l ∈ parsed.tree.lookups, l.Free := by
  obtain ⟨q, hfinds, hfinish⟩ := Parsed.finds h
  exact (hfinds.frees Progress.frees_start).finish hfinish

end LoxForms
