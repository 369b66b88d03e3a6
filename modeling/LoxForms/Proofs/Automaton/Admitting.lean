import LoxForms.Proofs.Automaton.Reachable
import LoxForms.Proofs.Automaton.Viable
import LoxForms.Proofs.Grammar.NearestElse
/-!
# What a stack admits

A stack is asked which kinds of token can come next by finishing productions as
if one of each kind came. Some productions may have been finished already, for
a token that came and then did not fit. This takes nothing away that matters:

* `IsPath.exists_admits`: there is a kind that can come, for every stack.
* `Spans.canFollow`: each kind that can come goes on to a sentence.

A kind that is admitted after a production has been finished can follow the
phrase (`mem_follow_of_wanted`), so the production is finished before it, and it
is admitted before as well. That is why the first holds.
-/

namespace LoxForms

/-- Whether a token of a kind can come after a row of kinds: some sentence begins
with them all, or the text ends and they are a sentence. -/
def CanFollow (ks : List TokenKind) (k : TokenKind) : Prop :=
  if k = .endOfText then IsSentence ks else IsViable (ks ++ [k])

theorem canFollow_endOfText {ks : List TokenKind} : CanFollow ks .endOfText ↔ IsSentence ks :=
  Iff.of_eq (if_pos rfl)

theorem canFollow_of_ne {ks : List TokenKind} {k : TokenKind} (h : k ≠ .endOfText) :
    CanFollow ks k ↔ IsViable (ks ++ [k]) :=
  Iff.of_eq (if_neg h)

namespace Automaton

/-! ## What is checked of the table -/

/-- Whether there is something to do in a state, be it for one kind only; the end
of the text is not read as a token; and the kinds that are wanted after a phrase
can follow it. -/
def Source.heeds (source : Source) (q : Nat) : Bool :=
  (q == accepting || !(source.row q).shifts.isEmpty || (source.complete? q).isSome) &&
    (source.row q).shifts.all (fun e => e.1 != .endOfText) &&
    match (source.past q).head? with
    | some (.phrase n) => (source.wanted q).all n.follow.contains
    | _ => true

theorem heeds_of_lt : ∀ q < states.size, table.heeds q := by
  rw [← quickTable_eq]
  decide +kernel

section

variable {q r : Nat} {k : TokenKind} {n : Nonterminal} {a : Atom}

theorem lt_size_of_past (h : past q ≠ []) : q < states.size :=
  Nat.lt_of_not_le (mt past_of_size_le h)

/-- In a state that has been reached, a program is complete, a token can be read
or a production finished. -/
theorem shifts_of_not_complete (h : step? q a = some r) (hr : r ≠ accepting)
    (hc : complete? r = none) : ∃ k q', step? r (.token k) = some q' := by
  obtain ⟨rest, hpast, -⟩ := past_of_step h
  have hheeds := heeds_of_lt r (lt_size_of_past (by simp [hpast]))
  rw [Source.heeds, Bool.and_eq_true, Bool.and_eq_true, Bool.or_eq_true, Bool.or_eq_true,
    beq_iff_eq, table_complete?, hc] at hheeds
  have hshifts : (table.row r).shifts.isEmpty = false := by simpa [hr] using hheeds.1.1
  obtain ⟨⟨k, q'⟩, hmem⟩ := List.exists_mem_of_ne_nil _ (List.isEmpty_eq_false_iff.mp hshifts)
  cases hlookup : (state r).shifts.lookup k with
  | some q' => exact ⟨k, q', hlookup⟩
  | none =>
    have hnone := List.lookup_eq_none_iff.mp hlookup (k, q') hmem
    exact absurd hnone (by simp)

/-- **The end of the text is not read.** -/
theorem ne_endOfText_of_step (h : step? q (.token k) = some r) : k ≠ .endOfText := by
  rintro rfl
  have hheeds := heeds_of_lt q (lt_size_of_step h)
  rw [Source.heeds, Bool.and_eq_true, Bool.and_eq_true, List.all_eq_true] at hheeds
  exact absurd (hheeds.1.2 _ (mem_of_shift h)) (by simp)

/-- **What is wanted after a phrase can follow it.** -/
theorem mem_follow_of_wanted (h : goto? q n = some r) (hk : k ∈ wanted r) : k ∈ n.follow := by
  obtain ⟨rest, hpast, -⟩ := past_of_step (a := .phrase n) h
  have hheeds := heeds_of_lt r (lt_size_of_past (by simp [hpast]))
  rw [Source.heeds, table_past, hpast, List.head?_cons, Bool.and_eq_true] at hheeds
  exact List.contains_iff_mem.mp (List.all_eq_true.mp hheeds.2 k (mem_table_wanted.mpr hk))

end

namespace Stack

variable {s s' : Stack} {k : TokenKind} {ks : List TokenKind} {p : Production}

/-! ## Admitting -/

theorem settle_of_action?_eq_none (h : action? (top s) k = none) : settle s k = .stuck s := by
  obtain ⟨n, hn⟩ : ∃ n, reductionBound s = n + 1 :=
    ⟨reductionBound s - 1, by have := effort_lt_reductionBound s; omega⟩
  rw [settle, hn, settleWithin, h]

/-- **The kinds that are expected are those that are admitted**: nothing is
admitted that the state on top has nothing to do for. -/
theorem mem_expected : k ∈ expected s ↔ admits s k := by
  rw [expected, List.mem_filter, mem_wanted]
  refine and_iff_right_of_imp fun hk => ?_
  cases haction : action? (top s) k with
  | some action => rfl
  | none =>
    rw [admits, settle_of_action?_eq_none haction] at hk
    exact absurd hk (by simp)

theorem admits_iff (h : IsPath s) : admits s k ↔
    ∃ s', Finishes k s s' ∧
      ((∃ q, step? (top s') (.token k) = some q) ∨ top s' = accepting ∧ k = .endOfText) := by
  constructor
  · intro hk
    unfold admits at hk
    split at hk
    · exact absurd hk (by simp)
    · rename_i q s' hsettle
      obtain ⟨hfinishes, hstep⟩ := (settle_reads_iff h).mp hsettle
      exact ⟨s', hfinishes, .inl ⟨q, hstep⟩⟩
    · rename_i s' hsettle
      obtain ⟨hfinishes, hend⟩ := (settle_ends_iff h).mp hsettle
      exact ⟨s', hfinishes, .inr hend⟩
  · rintro ⟨s', hfinishes, ⟨q, hstep⟩ | hend⟩
    · rw [admits, (settle_reads_iff h).mpr ⟨hfinishes, hstep⟩]
    · rw [admits, (settle_ends_iff h).mpr ⟨hfinishes, hend⟩]

/-- A kind that can follow a finished phrase is admitted before it is finished, if
it is admitted after. -/
theorem admits_of_reduce (h : IsPath s) (hp : complete? (top s) = some p)
    (hr : reduce? s p = some s') (hnone : step? (top s) (.token k) = none)
    (hk : k ∈ expected s') : admits s k := by
  obtain ⟨q, hgoto, rfl⟩ := reduce?_eq_some hr
  have hwanted : k ∈ wanted q := (List.mem_filter.mp hk).1
  have haction : action? (top s) k = some (.reduce p) :=
    action?_eq_reduce.mpr ⟨hnone, hp, mem_follow_of_wanted hgoto hwanted⟩
  rw [admits, settle_of_reduce h haction hr, ← admits]
  exact mem_expected.mp hk

/-- **Something can come next, after any stack.** -/
theorem IsPath.exists_admits (h : IsPath s) : ∃ k, admits s k := by
  induction hn : effort s using Nat.strongRecOn generalizing s with
  | _ n ih =>
    subst hn
    by_cases hend : top s = accepting
    · exact ⟨.endOfText, (admits_iff h).mpr ⟨s, .refl, .inr ⟨hend, rfl⟩⟩⟩
    by_cases hreads : ∃ k q, step? (top s) (.token k) = some q
    · obtain ⟨k, hstep⟩ := hreads
      exact ⟨k, (admits_iff h).mpr ⟨s, .refl, .inl hstep⟩⟩
    -- no token is read in this state, so a production is complete in it
    obtain ⟨p, hp⟩ : ∃ p, complete? (top s) = some p := by
      cases h with
      | nil => exact exists_complete_start.imp fun _ => And.left
      | cons hstep _ =>
        exact Option.ne_none_iff_exists'.mp fun hnone =>
          hreads (shifts_of_not_complete hstep hend hnone)
    obtain ⟨s', hr⟩ := h.exists_reduce hp
    obtain ⟨k, hk⟩ := ih _ (effort_lt_of_reduce h hp hr) (h.reduce hr) rfl
    refine ⟨k, admits_of_reduce h hp hr ?_ (mem_expected.mpr hk)⟩
    rw [Option.eq_none_iff_forall_not_mem]
    exact fun q hq => hreads ⟨k, q, hq⟩

theorem IsPath.expected_ne_nil (h : IsPath s) : expected s ≠ [] := by
  obtain ⟨k, hk⟩ := h.exists_admits
  exact List.ne_nil_of_mem (mem_expected.mpr hk)

/-! ## What is admitted goes on to a sentence -/

namespace Spans

/-- **Finishing a production keeps what the frames make.** -/
theorem reduce (h : Spans s ks) (hp : complete? (top s) = some p) (hr : reduce? s p = some s') :
    Spans s' ks := by
  obtain ⟨q, hgoto, rfl⟩ := reduce?_eq_some hr
  obtain ⟨us, vs, rfl, hrest, hvs⟩ := h.pop (past_of_complete hp)
  rw [List.reverse_reverse] at hvs
  rw [List.length_reverse] at hrest
  exact .cons (a := .phrase p.phrase) hgoto hrest
    (.production (mem_productions_of_complete hp) hvs)

theorem finishes (h : Spans s ks) (hf : Finishes k s s') : Spans s' ks := by
  induction hf with
  | refl => exact h
  | step ha hr _ ih => exact ih (h.reduce (action?_eq_reduce.mp ha).2.1 hr)

/-- **What a stack admits can come after what it has read.** -/
theorem canFollow (h : Spans s ks) (hk : admits s k) : CanFollow ks k := by
  obtain ⟨s', hfinishes, ⟨q, hstep⟩ | ⟨hend, rfl⟩⟩ := (admits_iff h.isPath).mp hk
  · have hne := ne_endOfText_of_step hstep
    have hread : Spans (⟨q, []⟩ :: s') (ks ++ [k]) :=
      .cons (a := .token k) hstep (h.finishes hfinishes) (.token .done)
    obtain ⟨more, hmore⟩ := hread.exists_program
    exact (canFollow_of_ne hne).mpr ⟨more, isSentence_iff_makes.mpr hmore⟩
  · have hprogram := (h.finishes hfinishes).of_accepting hend
    exact canFollow_endOfText.mpr (isSentence_iff_makes.mpr hprogram)

end Spans

end Stack

end Automaton

open Automaton Stack

/-- **What cannot come after a row of symbols is not read** after it, if this is a kind up to
which the row can be read. -/
theorem Lands.refuses {k : TokenKind} {slots : List Slot} {w : List Lexeme}
    {ts : List (Tree Lexeme)} {qs : List Nat} (h : Lands k 0 slots w ts qs)
    (hf : Slot.followed k slots)
    (hnone : ∀ r ∈ walk? 0 (slots.filterMap Slot.atom?), action? r k = none) :
    ∃ q, Progress.start.Visits w qs q ∧ q.stack.IsPath ∧
      ∀ l q', l.kind = k → q.feed l ≠ .ok q' := by
  obtain ⟨frames, hgoes, hwalk, -, -⟩ := goes_of_lands h (s := []) rfl hf
  obtain ⟨s, hvisits, hpath, hfinishes⟩ := Progress.visits_of_goes hgoes .nil []
  refine ⟨_, hvisits, hpath, fun l q' hl hfeed => ?_⟩
  obtain ⟨target, stack, hsettle, -⟩ := Progress.settle_of_feed hfeed
  rw [hl, hfinishes.settle_eq hpath, settle_of_action?_eq_none (hnone _ hwalk)] at hsettle
  exact nomatch hsettle

end LoxForms
