import LoxForms.Proofs.Automaton.Settling
import LoxForms.Proofs.Grammar.Reading
import LoxForms.Tree.Reading
/-!
# What the stack holds

Every frame of the stack stands for a symbol that has read a piece of the text,
and the pieces, put together from the first frame to the last, are all that has
been read. `Stack.Holds` is this invariant. Finishing a production keeps it,
since the state on top tells which symbols have just been read; and reading a
lexeme adds a frame of its own.

At the end the stack holds one program, so whatever a text is read as, the
productions read as well: `Parsed.reads`.
-/

namespace LoxForms

/-- What one symbol reads before a lexeme of the kind `after`, and the trees
that it becomes. -/
inductive Atom.Gives (after : TokenKind) : Atom → List Lexeme → List (Tree Lexeme) → Prop
  | token {k : TokenKind} {l : Lexeme} : l.kind = k → Gives after (.token k) [l] [.leaf l]
  | phrase {n : Nonterminal} {w : List Lexeme} {ts : List (Tree Lexeme)} :
      Reads after [.phrase n] w ts → Gives after (.phrase n) w ts

/-- What symbols read one after the other, each with the trees of its own. -/
inductive Gives : TokenKind → List Atom → List Lexeme → List (List (Tree Lexeme)) → Prop
  | nil {after : TokenKind} : Gives after [] [] []
  | cons {after : TokenKind} {a : Atom} {as : List Atom} {u w : List Lexeme}
      {ts : List (Tree Lexeme)} {tss : List (List (Tree Lexeme))} :
      a.Gives (upcoming after w) u ts → Gives after as w tss →
      Gives after (a :: as) (u ++ w) (ts :: tss)

/-- Whether a row of slots cannot begin with an `else`, but for what comes
after it if it is empty. -/
def Slot.beginsOther : List Slot → Bool
  | [] => true
  | s :: _ =>
    match s.atom? with
    | some (.token k) => k != .elseWord
    | _ => false

/-- Whether each missing part stands at the end, or before a token that is no
`else`. -/
def Slot.guarded : List Slot → Bool
  | [] => true
  | s :: rest => (s != .absent || beginsOther rest) && guarded rest

namespace Gives

variable {after : TokenKind} {as : List Atom} {a : Atom} {u w : List Lexeme}
variable {ts : List (Tree Lexeme)} {tss : List (List (Tree Lexeme))}

theorem concat (h : Gives (upcoming after u) as w tss) (ha : a.Gives after u ts) :
    Gives after (as ++ [a]) (w ++ u) (tss ++ [ts]) := by
  induction h with
  | nil => simpa using cons (w := []) ha nil
  | cons hfirst _ ih =>
    rw [List.append_assoc]
    rw [← upcoming_append] at hfirst
    exact cons hfirst ih

theorem upcoming_ne_else {slots : List Slot} (hb : Slot.beginsOther slots)
    (hnil : slots = [] → after ≠ .elseWord)
    (h : Gives after (slots.filterMap Slot.atom?) w tss) : upcoming after w ≠ .elseWord := by
  cases slots with
  | nil =>
    cases h
    exact hnil rfl
  | cons s rest =>
    simp only [Slot.beginsOther] at hb
    split at hb
    · rename_i k hs
      rw [List.filterMap_cons_some hs] at h
      cases h with
      | cons hfirst _ =>
        cases hfirst with
        | token hl => simpa [hl] using hb
    · exact absurd hb (by simp)

/-- **The symbols of a production read what its slots do.** Where a part is
missing, the next lexeme is no `else`. -/
theorem reads {slots : List Slot} (hg : Slot.guarded slots)
    (hlast : slots.getLast? = some .absent → after ≠ .elseWord)
    (h : Gives after (slots.filterMap Slot.atom?) w tss) :
    Reads after slots w (Production.children slots tss) := by
  induction slots generalizing w tss with
  | nil =>
    cases h
    exact .done
  | cons s rest ih =>
    rw [Slot.guarded, Bool.and_eq_true] at hg
    have hlast' : rest.getLast? = some .absent → after ≠ .elseWord := by
      intro hr
      exact hlast (by rw [List.getLast?_cons, hr]; rfl)
    cases s with
    | keep k =>
      cases h with
      | cons hfirst hrest =>
        cases hfirst with
        | token hl => exact .keep hl (ih hg.2 hlast' hrest)
    | drop k =>
      cases h with
      | cons hfirst hrest =>
        cases hfirst with
        | token hl => exact .drop hl (ih hg.2 hlast' hrest)
    | phrase n =>
      cases h with
      | cons hfirst hrest =>
        cases hfirst with
        | phrase hn => exact .append hn (ih hg.2 hlast' hrest)
    | absent =>
      have hrest : Gives after (rest.filterMap Slot.atom?) w tss := h
      have hnil : rest = [] → after ≠ .elseWord := by
        rintro rfl
        exact hlast rfl
      exact .absent (hrest.upcoming_ne_else (by simpa using hg.1) hnil) (ih hg.2 hlast' hrest)

end Gives

/-! ## The invariant -/

theorem Grammar.guarded_of_mem {p : Production} (hp : p ∈ Grammar.productions) :
    Slot.guarded p.slots := by
  have all_guarded : ∀ p ∈ Grammar.productions.toList, Slot.guarded p.slots := by decide +kernel
  exact all_guarded p (Array.mem_toList_iff.mpr hp)

theorem Grammar.single_of_program {p : Production} (hp : p ∈ Grammar.productions)
    (hn : p.phrase = .program) : p.shape = .node (.rule .start) := by
  have all_single : ∀ p ∈ Grammar.productions.toList,
      p.phrase = .program → p.shape = .node (.rule .start) := by decide +kernel
  exact all_single p (Array.mem_toList_iff.mpr hp) hn

/-- A program is one node. -/
theorem Reads.exists_program {after : TokenKind} {w : List Lexeme} {ts : List (Tree Lexeme)}
    (h : Reads after [.phrase .program] w ts) : ∃ children, ts = [.node (.rule .start) children] := by
  obtain ⟨p, hp, hn, children, -, rfl⟩ := h.of_phrase
  rw [Grammar.single_of_program hp hn]
  exact ⟨children, rfl⟩

namespace Automaton.Stack

/-- **The frames hold what has been read**, each of them what its symbol reads
before what comes next. -/
inductive Holds : TokenKind → Stack → List Lexeme → Prop
  | nil {after : TokenKind} : Holds after [] []
  | cons {after : TokenKind} {f : Frame} {s : Stack} {a : Atom} {w u : List Lexeme} :
      step? (top s) a = some f.state → Holds (upcoming after u) s w → a.Gives after u f.trees →
      Holds after (f :: s) (w ++ u)

namespace Holds

variable {after k : TokenKind} {s s' : Stack} {w : List Lexeme} {p : Production}

theorem isPath (h : Holds after s w) : IsPath s := by
  induction h with
  | nil => exact .nil
  | cons hstep _ _ ih => exact .cons hstep ih

/-- The symbols that the state on top tells of are those of the last frames. -/
theorem pop {as : List Atom} (h : Holds after s w) (has : as <+: past (top s)) :
    ∃ v u, w = v ++ u ∧
      Gives after as.reverse u ((s.take as.length).reverse.map Frame.trees) ∧
      Holds (upcoming after u) (s.drop as.length) v := by
  induction as generalizing after s w with
  | nil => exact ⟨w, [], (List.append_nil w).symm, .nil, h⟩
  | cons a as ih =>
    cases h with
    | nil => exact absurd has not_prefix_past_zero
    | @cons _ f s b w u hstep hs hb =>
      obtain ⟨rfl, has'⟩ := prefix_of_step hstep has
      obtain ⟨v, u', rfl, hgives, hv⟩ := ih hs has'
      refine ⟨v, u' ++ u, List.append_assoc .., ?_, by rwa [upcoming_append]⟩
      simpa using hgives.concat hb

/-- **Finishing a production keeps what the stack holds.** -/
theorem reduce (h : Holds k s w) (ha : action? (top s) k = some (.reduce p))
    (hr : reduce? s p = some s') : Holds k s' w := by
  obtain ⟨hshift, hp, -⟩ := action?_eq_reduce.mp ha
  obtain ⟨q, hq, rfl⟩ := reduce?_eq_some hr
  obtain ⟨v, u, rfl, hgives, hv⟩ := h.pop (past_of_complete hp)
  rw [List.reverse_reverse, List.length_reverse] at hgives
  rw [List.length_reverse] at hv
  have hmem := mem_productions_of_complete hp
  have hlast : p.slots.getLast? = some .absent → k ≠ .elseWord := by
    rintro hl rfl
    have helse := shift_else_of_complete hp hl
    rw [← step?_token, hshift] at helse
    exact absurd helse (by simp)
  have hreads := hgives.reads (Grammar.guarded_of_mem hmem) hlast
  exact .cons (a := .phrase p.phrase) hq hv (.phrase (.production hmem hreads))

theorem finishes (h : Holds k s w) (hf : Finishes k s s') : Holds k s' w := by
  induction hf with
  | refl => exact h
  | step ha hr _ ih => exact ih (h.reduce ha hr)

/-- Reading a lexeme adds a frame of its own, whatever comes after it. -/
theorem read {l : Lexeme} {q : Nat} (h : Holds l.kind s w)
    (hq : step? (top s) (.token l.kind) = some q) :
    Holds after (⟨q, [.leaf l]⟩ :: s) (w ++ [l]) :=
  .cons hq h (.token rfl)

/-- **Where a text can end, the stack holds one program.** -/
theorem of_accepting (h : Holds after s w) (htop : top s = accepting) :
    ∃ q ts, s = [⟨q, ts⟩] ∧ Reads after [.phrase .program] w ts := by
  cases h with
  | nil => exact absurd htop (by decide)
  | @cons _ f s a w u hstep hs ha =>
    obtain ⟨rest, hpast, -⟩ := past_of_step hstep
    rw [show f.state = accepting from htop, past, if_pos rfl] at hpast
    obtain ⟨rfl, -⟩ := List.cons.inj hpast
    obtain rfl := hs.isPath.eq_nil (eq_zero_of_goto_program hstep)
    cases hs
    cases ha with
    | phrase hreads => exact ⟨f.state, f.trees, rfl, hreads⟩

end Holds

end Automaton.Stack

/-! ## Runs -/

namespace Progress

open Automaton

variable {p q : Progress} {parsed : Parsed}

/-- A lexeme is read in the state that settling for it leads to. -/
theorem settle_of_feed {l : Lexeme} (h : p.feed l = .ok q) : ∃ target stack,
    p.stack.settle l.kind = .reads target stack ∧
      q = ⟨⟨target, [.leaf l]⟩ :: stack, l :: p.read⟩ := by
  unfold Progress.feed at h
  split at h
  · rename_i target stack hsettle
    exact ⟨target, stack, hsettle, (Except.ok.inj h).symm⟩
  · exact absurd h (by simp)
  · exact absurd h (by simp)

/-- A text ends where settling for the end leads to an end. -/
theorem settle_of_finish (h : p.finish = .ok parsed) : ∃ stack,
    p.stack.settle .endOfText = .ends stack ∧
      parsed = ⟨(stack.head?.bind (·.trees.head?)).getD .absent, p.read.reverse⟩ := by
  unfold Progress.finish at h
  split at h
  · rename_i stack hsettle
    exact ⟨stack, hsettle, (Except.ok.inj h).symm⟩
  · exact absurd h (by simp)
  · exact absurd h (by simp)

/-- The stack holds the lexemes that have been read. -/
def Sound (p : Progress) : Prop := ∀ after, p.stack.Holds after p.read.reverse

theorem Sound.start : Sound Progress.start := fun _ => .nil

theorem Sound.isPath (h : p.Sound) : p.stack.IsPath := (h .endOfText).isPath

/-- **Reading a lexeme keeps the invariant.** -/
theorem Sound.feed {l : Lexeme} (h : p.Sound) (hf : p.feed l = .ok q) :
    q.Sound ∧ q.read = l :: p.read := by
  obtain ⟨target, stack, hs, rfl⟩ := settle_of_feed hf
  obtain ⟨hfin, hstep⟩ := (Stack.settle_reads_iff h.isPath).mp hs
  refine ⟨fun after => ?_, rfl⟩
  rw [List.reverse_cons]
  exact ((h l.kind).finishes hfin).read hstep

/-- **A text that ends has been read as a program.** -/
theorem Sound.finish (h : p.Sound) (hf : p.finish = .ok parsed) :
    parsed.lexemes = p.read.reverse ∧
      Reads .endOfText [.phrase .program] parsed.lexemes [parsed.tree] := by
  obtain ⟨stack, hs, rfl⟩ := settle_of_finish hf
  obtain ⟨hfin, htop, -⟩ := (Stack.settle_ends_iff h.isPath).mp hs
  obtain ⟨q, ts, rfl, hreads⟩ := ((h .endOfText).finishes hfin).of_accepting htop
  obtain ⟨children, rfl⟩ := hreads.exists_program
  exact ⟨rfl, hreads⟩

theorem Sound.run {here : Place} {skip : Nat} {cs : List Char} (h : p.Sound)
    (hr : p.run here skip cs = .ok parsed) :
    Reads .endOfText [.phrase .program] parsed.lexemes [parsed.tree] := by
  induction cs generalizing p here skip with
  | nil =>
    unfold Progress.run at hr
    exact (h.finish hr).2
  | cons c rest ih =>
    cases skip with
    | succ skip => exact ih h hr
    | zero =>
      unfold Progress.run at hr
      split at hr
      · exact ih h hr
      · split at hr
        · rename_i q hq
          exact ih (h.feed hq).1 hr
        · exact absurd hr (by simp)
      · exact absurd hr (by simp)

end Progress

/-- **Whatever a text is read as, the productions read as well.** -/
theorem Parsed.reads {text : String} {parsed : Parsed} (h : Parsed.ofText text = .ok parsed) :
    Reads .endOfText [.phrase .program] parsed.lexemes [parsed.tree] :=
  Progress.Sound.start.run h

end LoxForms
