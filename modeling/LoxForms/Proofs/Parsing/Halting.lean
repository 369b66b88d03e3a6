import LoxForms.Proofs.Automaton.Chains
import LoxForms.Proofs.Form.Safety
import LoxForms.Proofs.Parsing.Layout
import LoxForms.Proofs.Parsing.Located
import Mathlib.Logic.Function.Iterate
/-!
# Reading comes to an end

`Progress.run` reads a text by recursion on its characters, and settles the stack within a
bound. Here is what it does one step at a time and without any bound: a `Phase` either
searches the text for what comes next, or finishes a production, or reads a lexeme, or has
halted. Each step leaves the outcome as it is (`Phase.outcome_next`) and costs some of
what there is to spend (`Phase.cost_next`), so the phases of a text halt, with just what
`Parsed.ofText` says (`Parsed.halts`).

What a text has to spend is the effort of its stack and a constant for each of its
characters. A lexeme takes its characters from the text, and they pay for the frame that
it puts on the stack.
-/

namespace LoxForms

open Automaton Stack

namespace Lexeme

variable {s t rest : List Char} {n : Nat}

/-- What is passed over at the front of a text in one go: several blanks, or a comment. -/
def passed? (s : List Char) : Option (List Char) :=
  match s.takeWhile isBlank with
  | [] => (gap? s).map s.take
  | blanks => some blanks

theorem passed?_front (h : passed? s = some t) : t ≠ [] ∧ t <+: s := by
  unfold passed? at h
  split at h
  · obtain ⟨n, hn, rfl⟩ := Option.map_eq_some_iff.mp h
    obtain ⟨hpos, hle⟩ := gap?_bounds hn
    refine ⟨?_, List.take_prefix n s⟩
    rw [ne_eq, List.take_eq_nil_iff, not_or]
    exact ⟨by omega, by rintro rfl; simp at hle; omega⟩
  · rename_i hne
    obtain rfl := Option.some.inj h
    exact ⟨hne, List.takeWhile_prefix _⟩

/-- What is not passed over is no gap. -/
theorem gap?_eq_none_of_passed? (h : passed? s = none) : gap? s = none := by
  unfold passed? at h
  split at h
  · exact Option.map_eq_none_iff.mp h
  · exact nomatch h

end Lexeme

namespace Progress

open Lexeme

variable {p q : Progress} {here : Place} {rest t : List Char} {l : Lexeme}

theorem run_blanks {blanks : List Char} (h : blanks.all isBlank) (p : Progress) (here : Place)
    (rest : List Char) : p.run here 0 (blanks ++ rest) = p.run (here.afterAll blanks) 0 rest := by
  induction blanks generalizing here with
  | nil => rfl
  | cons c blanks ih =>
    rw [List.all_cons, Bool.and_eq_true] at h
    have hfirst : p.run here 0 ([c] ++ (blanks ++ rest)) =
        p.run (here.afterAll [c]) 0 (blanks ++ rest) :=
      run_gap p here (List.cons_ne_nil c []) (gap?_of_isBlank h.1)
    rw [List.cons_append]
    exact hfirst.trans (ih h.2 (here.after c))

/-- **What is passed over in one go is passed over.** -/
theorem run_passed (h : passed? rest = some t) (p : Progress) (here : Place) :
    p.run here 0 rest = p.run (here.afterAll t) 0 (rest.drop t.length) := by
  obtain ⟨hne, more, rfl⟩ := passed?_front h
  rw [List.drop_left]
  unfold passed? at h
  split at h
  · obtain ⟨n, hn, htake⟩ := Option.map_eq_some_iff.mp h
    have hlength : n = t.length := by
      have hle := (gap?_bounds hn).2
      rw [← htake, List.length_take, Nat.min_eq_left hle]
    exact run_gap p here hne (hlength ▸ hn)
  · have hall : ((t ++ more).takeWhile isBlank).all isBlank := List.all_takeWhile
    rw [Option.some.inj h] at hall
    exact run_blanks hall p here more

/-! ## Steps -/

/-- What there is to do next with a text. -/
inductive Phase where
  /-- To search the rest of it for what comes next. -/
  | searching (p : Progress) (here : Place) (rest : List Char)
  /-- To finish productions before a lexeme, or before the end, and then to read it. -/
  | settling (p : Progress) (l : Lexeme) (rest : List Char)
  /-- Nothing. -/
  | halted (result : Except SyntaxError Parsed)

namespace Phase

def start (text : String) : Phase := .searching .start .start text.toList

/-- One step before a lexeme: a single production is finished, or the lexeme is read, or
the text is complete, or there is nothing to do. -/
def settle (p : Progress) (l : Lexeme) (rest : List Char) : Phase :=
  match action? p.stack.top l.kind with
  | some (.shift q) => .searching ⟨⟨q, [.leaf l]⟩ :: p.stack, l :: p.read⟩ l.past rest
  | some (.reduce production) =>
    match reduce? p.stack production with
    | some s => .settling { p with stack := s } l rest
    | none => .halted (.error (p.unexpected .reading l p.stack p.wanted))
  | some .accept =>
    .halted (.ok ⟨(p.stack.head?.bind (·.trees.head?)).getD .absent, p.read.reverse⟩)
  | none => .halted (.error (p.unexpected .reading l p.stack p.wanted))

/-- One step. -/
def next : Phase → Phase
  | searching p _ [] => settling p (.endOfText p.read.head?) []
  | searching p here (c :: cs) =>
    match passed? (c :: cs) with
    | some t => searching p (here.afterAll t) ((c :: cs).drop t.length)
    | none =>
      match token? p.wanted (c :: cs) with
      | some (k, t) => settling p ⟨k, .ofList t, here, here.afterAll t⟩ ((c :: cs).drop t.length)
      | none => halted (.error (p.noToken here c cs))
  | settling p l rest => settle p l rest
  | halted result => halted result

/-- What a step matches in the text, be it passed over or read. Where nothing is found that
is looked for, what is found when all kinds are looked for is matched too. -/
def match? : Phase → Option (List Char)
  | searching p _ rest =>
    (passed? rest).or (((token? p.wanted rest).or (token? TokenKind.all rest)).map Prod.snd)
  | settling .. | halted _ => none

/-- What has not been matched. -/
def remaining : Phase → List Char
  | searching _ _ rest | settling _ _ rest => rest
  | halted _ => []

def stack? : Phase → Option Stack
  | searching p .. | settling p .. => some p.stack
  | halted _ => none

/-- All that is matched in so many steps. -/
def matched : Nat → Phase → List (List Char)
  | 0, _ => []
  | n + 1, phase => phase.match?.toList ++ matched n phase.next

/-- What comes of a text in the end. -/
def outcome : Phase → Except SyntaxError Parsed
  | searching p here rest => p.run here 0 rest
  | settling p l rest =>
    if l.kind = .endOfText then p.finish else (p.feed l) >>= fun q => q.run l.past 0 rest
  | halted result => result

/-- What is left to spend. -/
def cost : Phase → Nat
  | searching p _ rest => effort p.stack + 35 * rest.length + 2
  | settling p l rest => effort p.stack + 35 * rest.length + if l.kind = .endOfText then 1 else 36
  | halted _ => 0

/-- To be a phase that a text can lead to. -/
structure Sound (phase : Phase) : Prop where
  stack : ∀ s ∈ phase.stack?, Reachable s
  last : ∀ p l rest, phase = settling p l rest → l.kind = .endOfText → l = .endOfText p.read.head?

variable {phase : Phase}

/-- What a step does where there is still some text: something is passed over, or else a
token is found that is looked for, or else the text is at fault. -/
theorem next_cons (p : Progress) (here : Place) (c : Char) (cs : List Char) :
    (∃ t, passed? (c :: cs) = some t ∧
      (searching p here (c :: cs)).next =
        searching p (here.afterAll t) ((c :: cs).drop t.length)) ∨
    (passed? (c :: cs) = none ∧ ∃ k t, token? p.wanted (c :: cs) = some (k, t) ∧
      (searching p here (c :: cs)).next =
        settling p ⟨k, .ofList t, here, here.afterAll t⟩ ((c :: cs).drop t.length)) ∨
    (passed? (c :: cs) = none ∧ token? p.wanted (c :: cs) = none ∧
      (searching p here (c :: cs)).next = halted (.error (p.noToken here c cs))) := by
  rw [next]
  cases passed? (c :: cs) with
  | some t => exact .inl ⟨t, rfl, rfl⟩
  | none =>
    cases token? p.wanted (c :: cs) with
    | some found => exact .inr (.inl ⟨rfl, found.1, found.2, rfl, rfl⟩)
    | none => exact .inr (.inr ⟨rfl, rfl, rfl⟩)

/-! ### Matches -/

/-- **A match is not empty, and stands at the front of what remains.** -/
theorem match?_front (h : t ∈ phase.match?) : t ≠ [] ∧ t <+: phase.remaining := by
  cases phase with
  | searching p here rest =>
    rw [match?, Option.mem_def, Option.or_eq_some_iff] at h
    rcases h with h | ⟨-, h⟩
    · exact passed?_front h
    · obtain ⟨⟨k, t⟩, hfound, rfl⟩ := Option.map_eq_some_iff.mp h
      rcases Option.or_eq_some_iff.mp hfound with hfound | ⟨-, hfound⟩
      · exact token?_front hfound
      · exact token?_front hfound
  | settling => exact nomatch h
  | halted => exact nomatch h

theorem remaining_settle (p : Progress) (l : Lexeme) (rest : List Char) :
    (settle p l rest).remaining <+: rest := by
  unfold settle
  split
  · exact List.prefix_rfl
  · split
    · exact List.prefix_rfl
    · exact List.nil_prefix
  · exact List.nil_prefix
  · exact List.nil_prefix

/-- **What is matched is taken away from what remains.** -/
theorem match?_append_remaining (phase : Phase) :
    phase.match?.toList.flatten ++ phase.next.remaining <+: phase.remaining := by
  have hdrop {t s : List Char} (h : t <+: s) : [t].flatten ++ s.drop t.length <+: s := by
    obtain ⟨more, rfl⟩ := h
    simp only [List.flatten_singleton, List.drop_left, List.prefix_rfl]
  cases phase with
  | searching p here rest =>
    cases rest with
    | nil =>
      have hnone : (searching p here []).match? = none :=
        Option.eq_none_iff_forall_not_mem.mpr fun t ht =>
          (match?_front ht).1 (List.prefix_nil.mp (match?_front ht).2)
      rw [hnone]
      exact List.nil_prefix
    | cons c cs =>
      rcases next_cons p here c cs with
        ⟨t, hpassed, hnext⟩ | ⟨hpassed, k, t, htoken, hnext⟩ | ⟨hpassed, htoken, hnext⟩
      · rw [hnext, match?, hpassed]
        exact hdrop (passed?_front hpassed).2
      · rw [hnext, match?, hpassed, htoken]
        exact hdrop (token?_front htoken).2
      · rw [hnext, match?, hpassed, htoken]
        cases hall : token? TokenKind.all (c :: cs) with
        | none => exact List.nil_prefix
        | some found =>
          have hfront := (token?_front hall).2
          simpa [remaining] using hfront
  | settling p l rest => exact remaining_settle p l rest
  | halted => exact List.nil_prefix

/-! ### Soundness, outcome and cost -/

theorem sound_start (text : String) : (start text).Sound where
  stack := by
    rintro s ⟨⟩
    exact .start
  last := nofun

theorem Sound.reachable {l : Lexeme} {rest : List Char} (h : (settling p l rest).Sound) :
    p.stack.Reachable := h.stack _ rfl

theorem Sound.settle {l : Lexeme} {rest : List Char} (h : (settling p l rest).Sound) :
    (settle p l rest).Sound := by
  unfold Phase.settle
  split
  · rename_i q ha
    refine ⟨?_, nofun⟩
    rintro s ⟨⟩
    exact h.reachable.read ha
  · rename_i production ha
    split
    · rename_i s hr
      refine ⟨?_, ?_⟩
      · rintro s' ⟨⟩
        exact h.reachable.finish ha hr
      · rintro p' l' rest' ⟨⟩ hl
        exact h.last p l rest rfl hl
    · exact ⟨nofun, nofun⟩
  · exact ⟨nofun, nofun⟩
  · exact ⟨nofun, nofun⟩

/-- **A step leads from one phase of a text to another.** -/
theorem Sound.next (h : phase.Sound) : phase.next.Sound := by
  cases phase with
  | searching p here rest =>
    have hstack : ∀ s ∈ some p.stack, Reachable s := h.stack
    cases rest with
    | nil =>
      refine ⟨hstack, ?_⟩
      rintro p' l' rest' ⟨⟩ -
      rfl
    | cons c cs =>
      rcases next_cons p here c cs with ⟨t, -, hnext⟩ | ⟨-, k, t, htoken, hnext⟩ | ⟨-, -, hnext⟩
      · rw [hnext]
        exact ⟨hstack, nofun⟩
      · rw [hnext]
        refine ⟨hstack, ?_⟩
        rintro p' l' rest' ⟨⟩ hl
        exact absurd hl (found_of_token? htoken).ne_endOfText
      · rw [hnext]
        exact ⟨nofun, nofun⟩
  | settling p l rest => exact h.settle
  | halted => exact h

/-- Finishing a production leaves it as it is what comes of the text. -/
theorem outcome_reduce {s : Stack} {production : Production} (hp : p.stack.IsPath)
    (ha : action? p.stack.top l.kind = some (.reduce production))
    (hr : reduce? p.stack production = some s) :
    (settling { p with stack := s } l rest).outcome = (settling p l rest).outcome := by
  have hsettle := settle_of_reduce hp ha hr
  rw [outcome, outcome]
  split
  · rename_i hl
    rw [hl] at hsettle
    rw [finish, finish, hsettle]
    rfl
  · rw [feed, feed, hsettle]
    rfl

theorem outcome_settle (h : (settling p l rest).Sound) :
    (settle p l rest).outcome = (settling p l rest).outcome := by
  have hp := h.reachable.isPath
  unfold settle
  split
  · rename_i q ha
    have hstep := action?_eq_shift.mp ha
    have hsettle := (settle_reads_iff hp).mpr ⟨.refl, hstep⟩
    rw [outcome, outcome, if_neg (ne_endOfText_of_step hstep), feed, hsettle]
    rfl
  · rename_i production ha
    split
    · rename_i s hr
      exact outcome_reduce hp ha hr
    · rename_i hr
      obtain ⟨-, s, hs⟩ := h.reachable.exists_reduce ha
      exact absurd (hs.symm.trans hr) (Option.some_ne_none s)
  · rename_i ha
    obtain ⟨htop, hl⟩ := action?_eq_accept.mp ha
    rw [outcome, outcome, if_pos hl, finish, (settle_ends_iff hp).mpr ⟨.refl, htop, rfl⟩]
  · rename_i ha
    rw [outcome, outcome]
    split
    · rename_i hl
      rw [hl] at ha
      rw [finish, settle_of_action?_eq_none ha, ← h.last p l rest rfl hl]
      rfl
    · rw [feed, settle_of_action?_eq_none ha]
      rfl

theorem outcome_token {c : Char} {cs : List Char} {k : TokenKind}
    (hgap : gap? (c :: cs) = none) (htoken : token? p.wanted (c :: cs) = some (k, t)) :
    (settling p ⟨k, .ofList t, here, here.afterAll t⟩ ((c :: cs).drop t.length)).outcome =
      p.run here 0 (c :: cs) := by
  have hread := read_eq_token.mpr ⟨hgap, htoken⟩
  obtain ⟨hne, more, hmore⟩ := token?_front htoken
  rw [outcome, if_neg (found_of_token? htoken).ne_endOfText]
  cases hfeed : p.feed ⟨k, .ofList t, here, here.afterAll t⟩ with
  | error e =>
    rw [run, hread]
    simp only [hfeed]
    rfl
  | ok q =>
    rw [← hmore] at hread ⊢
    rw [run_token hne hread hfeed, List.drop_left]
    rfl

/-- **A step leaves it as it is what comes of the text.** -/
theorem outcome_next (h : phase.Sound) : phase.next.outcome = phase.outcome := by
  cases phase with
  | searching p here rest =>
    cases rest with
    | nil =>
      show (settling p (.endOfText p.read.head?) []).outcome = _
      rw [outcome, outcome, if_pos (kind_endOfText _), run]
    | cons c cs =>
      rcases next_cons p here c cs with
        ⟨t, hpassed, hnext⟩ | ⟨hpassed, k, t, htoken, hnext⟩ | ⟨hpassed, htoken, hnext⟩
      · rw [hnext]
        exact (run_passed hpassed p here).symm
      · rw [hnext]
        exact outcome_token (gap?_eq_none_of_passed? hpassed) htoken
      · have hgap := gap?_eq_none_of_passed? hpassed
        rw [hnext, outcome, outcome, run, read_eq_nothing.mpr ⟨hgap, htoken⟩]
  | settling p l rest => exact outcome_settle h
  | halted => rfl

theorem effort_cons_le (f : Frame) (s : Stack) : effort (f :: s) ≤ effort s + 33 := by
  cases s with
  | nil =>
    simp only [effort, List.length_cons, List.length_nil]
    omega
  | cons g s =>
    have hrank : (past g.state).head?.elim 0 Atom.rank ≤ 16 := by
      cases (past g.state).head? with
      | none => exact Nat.zero_le _
      | some a => exact a.rank_le
    simp only [effort, List.length_cons]
    omega

theorem cost_settle (h : (settling p l rest).Sound) :
    (settle p l rest).cost < (settling p l rest).cost := by
  have hhalted : ∀ result, (halted result).cost < (settling p l rest).cost := by
    intro result
    rw [cost, cost]
    split <;> omega
  unfold settle
  split
  · rename_i q ha
    have hle := effort_cons_le ⟨q, [.leaf l]⟩ p.stack
    rw [cost, cost, if_neg (ne_endOfText_of_step (action?_eq_shift.mp ha))]
    show effort (⟨q, [.leaf l]⟩ :: p.stack) + 35 * rest.length + 2 < _
    omega
  · rename_i production ha
    split
    · rename_i s hr
      have hlt := effort_lt_of_reduce h.reachable.isPath (action?_eq_reduce.mp ha).2.1 hr
      rw [cost, cost]
      show effort s + _ + _ < _
      omega
    · exact hhalted _
  · exact hhalted _
  · exact hhalted _

/-- **A step costs something**, unless the text is done with. -/
theorem cost_next (h : phase.Sound) (hne : ∀ result, phase ≠ halted result) :
    phase.next.cost < phase.cost := by
  cases phase with
  | searching p here rest =>
    have hlt {t : List Char} (ht : t ≠ [] ∧ t <+: rest) :
        (rest.drop t.length).length < rest.length := by
      have hpos := List.length_pos_iff.mpr ht.1
      have hle := ht.2.length_le
      rw [List.length_drop]
      omega
    cases rest with
    | nil =>
      show (settling p (.endOfText p.read.head?) []).cost < _
      rw [cost, cost, if_pos (kind_endOfText _)]
      omega
    | cons c cs =>
      rcases next_cons p here c cs with
        ⟨t, hpassed, hnext⟩ | ⟨-, k, t, htoken, hnext⟩ | ⟨-, -, hnext⟩
      · have hshorter := hlt (passed?_front hpassed)
        rw [hnext, cost, cost]
        omega
      · have hshorter := hlt (token?_front htoken)
        rw [hnext, cost, cost, if_neg (found_of_token? htoken).ne_endOfText]
        omega
      · rw [hnext, cost, cost]
        omega
  | settling p l rest => exact cost_settle h
  | halted result => exact absurd rfl (hne result)

/-! ### Runs -/

theorem sound_iterate (h : phase.Sound) (n : Nat) : (next^[n] phase).Sound := by
  induction n generalizing phase with
  | zero => exact h
  | succ n ih => exact ih h.next

/-- **A phase halts** before there is nothing left to spend, and with its outcome. -/
theorem exists_halted (h : phase.Sound) :
    ∃ n ≤ phase.cost, next^[n] phase = halted phase.outcome := by
  induction hcost : phase.cost using Nat.strongRecOn generalizing phase with
  | ind cost ih =>
    by_cases hhalted : ∃ result, phase = halted result
    · obtain ⟨result, rfl⟩ := hhalted
      exact ⟨0, Nat.zero_le cost, rfl⟩
    · have hlt : phase.next.cost < cost := hcost ▸ cost_next h (not_exists.mp hhalted)
      obtain ⟨n, hn, hresult⟩ := ih _ hlt h.next rfl
      rw [outcome_next h] at hresult
      exact ⟨n + 1, by omega, hresult⟩

theorem ne_nil_of_mem_matched {n : Nat} (h : t ∈ matched n phase) : t ≠ [] := by
  induction n generalizing phase with
  | zero => exact nomatch h
  | succ n ih =>
    rcases List.mem_append.mp h with h | h
    · exact (match?_front (Option.mem_toList.mp h)).1
    · exact ih h

/-- **The matches of a run stand one after the other**, before what then remains. -/
theorem matched_append_remaining (n : Nat) (phase : Phase) :
    (matched n phase).flatten ++ (next^[n] phase).remaining <+: phase.remaining := by
  induction n generalizing phase with
  | zero => exact List.prefix_rfl
  | succ n ih =>
    rw [matched, List.flatten_append, List.append_assoc, Function.iterate_succ_apply]
    exact ((List.prefix_append_right_inj _).mpr (ih phase.next)).trans
      (match?_append_remaining phase)

/-- There are no more matches than characters. -/
theorem length_matched_le (n : Nat) (phase : Phase) :
    (matched n phase).length ≤ phase.remaining.length := by
  induction n generalizing phase with
  | zero => exact Nat.zero_le _
  | succ n ih =>
    have hone : phase.match?.toList.length ≤ phase.match?.toList.flatten.length := by
      cases hmatch : phase.match? with
      | none => exact Nat.le_refl 0
      | some t =>
        rw [Option.toList_some, List.flatten_singleton]
        exact List.length_pos_iff.mpr (match?_front hmatch).1
    calc (matched (n + 1) phase).length
        = phase.match?.toList.length + (matched n phase.next).length := List.length_append
      _ ≤ phase.match?.toList.flatten.length + phase.next.remaining.length :=
          Nat.add_le_add hone (ih phase.next)
      _ = (phase.match?.toList.flatten ++ phase.next.remaining).length :=
          List.length_append.symm
      _ ≤ phase.remaining.length := (match?_append_remaining phase).length_le

end Phase
end Progress

open Progress.Phase

/-- **Reading comes to an end.** Before any token, and in any state that reading can be in,
no more productions are finished one after the other than the stack allows; then the
token is read, or the text is complete, or there is nothing to do. And so it is where it is
tried which tokens could come. What is matched in a text is never empty, whether it is
passed over or not, so that it is matched in no more pieces than it has characters. And
all that is done with a text is done in so many steps. -/
theorem Parsed.halts :
    (∀ s : Stack, s.Reachable → ∀ k,
      (∀ n s', Chain k n s s' → n ≤ Nonterminal.all.length * s.length + 1) ∧
      (∃ n s', Chain k n s s' ∧
        ((∃ q, action? s'.top k = some (.shift q) ∧ s.settle k = .reads q s') ∨
          (action? s'.top k = some .accept ∧ s.settle k = .ends s') ∨
          (action? s'.top k = none ∧ s.settle k = .stuck s'))) ∧
      (k ∈ s.expected ↔ ∃ n s', Chain k n s s' ∧
        ((∃ q, action? s'.top k = some (.shift q)) ∨ action? s'.top k = some .accept))) ∧
    ∀ text : String,
      (∀ m, (∀ t ∈ matched m (start text), t ≠ []) ∧
        (matched m (start text)).flatten <+: text.toList ∧
        (matched m (start text)).length ≤ text.length ∧
        ∀ s ∈ (next^[m] (start text)).stack?, s.Reachable) ∧
      ∃ n ≤ 35 * text.length + 41, next^[n] (start text) = halted (Parsed.ofText text) := by
  refine ⟨fun s hs k => ⟨fun n s' h => h.length_le hs.isPath, hs.exists_chain k,
    hs.isPath.mem_expected_iff⟩, fun text => ⟨fun m => ⟨?_, ?_, ?_, ?_⟩, ?_⟩⟩
  · exact fun t ht => ne_nil_of_mem_matched ht
  · exact (List.prefix_append _ _).trans (matched_append_remaining m (start text))
  · exact length_matched_le m (start text)
  · exact (sound_iterate (sound_start text) m).stack
  · obtain ⟨n, hn, hresult⟩ := exists_halted (sound_start text)
    refine ⟨n, Nat.le_trans hn (Nat.le_of_eq ?_), hresult⟩
    show 39 + 35 * text.length + 2 = 35 * text.length + 41
    omega

/-- A number before a semicolon is finished, and every level of expressions above it, in
no more than forty reductions; a text of two characters is matched in two pieces at most. -/
theorem Parsed.halts_number :
    (∃ n ≤ 40, ∃ s', Chain .semicolon n
      [⟨40, [.leaf ⟨.number, "1", .start, .start⟩]⟩] s') ∧
    (∃ n ≤ 111, next^[n] (start "1;") = halted (Parsed.ofText "1;")) := by
  have hreached : Stack.Reachable [⟨40, [.leaf ⟨.number, "1", .start, .start⟩]⟩] :=
    .read .start (by decide +kernel)
  obtain ⟨hle, ⟨n, s', hchain, -⟩, -⟩ := Parsed.halts.1 _ hreached .semicolon
  exact ⟨⟨n, hle n s' hchain, s', hchain⟩, (Parsed.halts.2 "1;").2⟩

end LoxForms
