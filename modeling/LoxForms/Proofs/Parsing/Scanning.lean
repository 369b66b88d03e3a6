import LoxForms.Proofs.Lexeme.Continued
import LoxForms.Proofs.Parsing.Spaced
/-!
# Scanning a text

`Scans` is a run over a text with the lexemes that it reads and the places where these
stand. Two things can be done to a text under which it is scanned as before. It can go
on on the next line (`Scans.append_line`), and then the lines can be taken apart again
if no string goes on over the break (`Scans.of_append_line`); and it can be scanned
further down, by a run that keeps up with the first one and reads what that one reads
(`Scans.simulate`).
-/

namespace LoxForms

/-! ## Moving down -/

namespace Place

/-- A place in a text that has been moved down, with so many characters and lines
before it. -/
def moved (chars lines : Nat) (p : Place) : Place := ⟨p.offset + chars, p.line + lines, p.column⟩

theorem after_moved (chars lines : Nat) (p : Place) (c : Char) :
    (p.moved chars lines).after c = (p.after c).moved chars lines := by
  unfold after moved
  split
  · rw [Nat.add_right_comm, Nat.add_right_comm p.line]
  · rw [Nat.add_right_comm]

theorem afterAll_moved (chars lines : Nat) (p : Place) (cs : List Char) :
    (p.moved chars lines).afterAll cs = (p.afterAll cs).moved chars lines := by
  induction cs generalizing p with
  | nil => rfl
  | cons c cs ih =>
    rw [afterAll, afterAll, List.foldl_cons, List.foldl_cons, after_moved]
    exact ih _

theorem line_afterAll (p : Place) (cs : List Char) :
    (p.afterAll cs).line = p.line + cs.count '\n' := by
  induction cs generalizing p with
  | nil => rfl
  | cons c cs ih =>
    rw [afterAll, List.foldl_cons, ← afterAll, ih, List.count_cons, after]
    split
    · rename_i hc
      rw [if_pos (beq_iff_eq.mpr hc), Nat.add_right_comm, Nat.add_assoc]
    · rename_i hc
      rw [if_neg (mt beq_iff_eq.mp hc)]
      rfl

/-- After a whole line a text begins anew, further down. -/
theorem after_line (cs : List Char) : (start.afterAll cs).after '\n' =
    start.moved (cs.length + 1) (cs.count '\n' + 1) := by
  have hoffset := offset_afterAll start cs
  have hline := line_afterAll start cs
  rw [after, if_pos rfl, moved, hoffset, hline]
  simp only [start, mk.injEq, and_true]
  omega

end Place

namespace Lexeme

def moved (chars lines : Nat) (l : Lexeme) : Lexeme :=
  ⟨l.kind, l.text, l.first.moved chars lines, l.past.moved chars lines⟩

end Lexeme

/-! ## Runs with their lexemes -/

namespace Progress

variable {p p' q r : Progress} {here : Place} {skip chars lines : Nat} {cs rest : List Char}
variable {ls ms : List Lexeme} {parsed : Parsed}

/-- A run over the rest of a text from a place on, with so many characters to be passed
over at first, that reads some lexemes. -/
inductive Scans : Progress → Place → Nat → List Char → List Lexeme → Progress → Prop
  | done {p : Progress} {here : Place} : Scans p here 0 [] [] p
  | skip {p q : Progress} {here : Place} {skip : Nat} {c : Char} {rest : List Char}
      {ls : List Lexeme} :
      Scans p (here.after c) skip rest ls q → Scans p here (skip + 1) (c :: rest) ls q
  | gap {p q : Progress} {here : Place} {n : Nat} {c : Char} {rest : List Char}
      {ls : List Lexeme} :
      Lexeme.read p.wanted (c :: rest) = .gap n → Scans p (here.after c) (n - 1) rest ls q →
      Scans p here 0 (c :: rest) ls q
  | token {p q r : Progress} {here : Place} {c : Char} {rest : List Char} {l : Lexeme}
      {ls : List Lexeme} :
      Lexeme.read p.wanted (c :: rest) = .token l.kind l.text.toList → l.first = here →
      l.past = here.afterAll l.text.toList → p.feed l = .ok q →
      Scans q (here.after c) (l.text.toList.length - 1) rest ls r →
      Scans p here 0 (c :: rest) (l :: ls) r

/-- **A run that reads a text scans it.** -/
theorem exists_scans (hskip : skip ≤ cs.length) (h : p.run here skip cs = .ok parsed) :
    ∃ ls q, Scans p here skip cs ls q ∧ q.finish = .ok parsed := by
  induction cs generalizing p here skip with
  | nil =>
    obtain rfl := Nat.le_zero.mp hskip
    rw [run_nil] at h
    exact ⟨[], p, .done, h⟩
  | cons c rest ih =>
    cases skip with
    | succ skip =>
      obtain ⟨ls, q, hs, hq⟩ := ih (Nat.le_of_succ_le_succ hskip) h
      exact ⟨ls, q, .skip hs, hq⟩
    | zero =>
      unfold run at h
      split at h
      · rename_i n hread
        have hle := (Lexeme.gap?_bounds (Lexeme.read_eq_gap.mp hread)).2
        rw [List.length_cons] at hle
        obtain ⟨ls, q, hs, hq⟩ := ih (by omega) h
        exact ⟨ls, q, .gap hread hs, hq⟩
      · rename_i k t hread
        have hle := (Lexeme.token?_front (Lexeme.read_eq_token.mp hread).2).2.length_le
        rw [List.length_cons] at hle
        have hlexeme : (String.ofList t).toList = t := String.toList_ofList
        split at h
        · rename_i p₁ hfeed
          obtain ⟨ls, q, hs, hq⟩ := ih (by omega) h
          refine ⟨⟨k, .ofList t, here, here.afterAll t⟩ :: ls, q, ?_, hq⟩
          refine .token ?_ rfl ?_ hfeed ?_
          · rw [hlexeme]
            exact hread
          · rw [hlexeme]
          · rw [hlexeme]
            exact hs
        · cases h
      · cases h

namespace Scans

theorem run_eq (h : Scans p here skip cs ls q) : p.run here skip cs = q.finish := by
  induction h with
  | @done p here => exact run_nil p here 0
  | skip _ ih => exact ih
  | gap hread _ ih =>
    rw [run, hread]
    exact ih
  | @token p q r here c rest l ls hread hfirst hpast hfeed _ ih =>
    have hlexeme : l = ⟨l.kind, .ofList l.text.toList, here, here.afterAll l.text.toList⟩ := by
      rw [String.ofList_toList, ← hpast, ← hfirst]
    rw [hlexeme] at hfeed
    rw [run, hread]
    simp only [hfeed]
    exact ih

theorem feedAll (h : Scans p here skip cs ls q) : p.feedAll ls = .ok q := by
  induction h with
  | done => rfl
  | skip _ ih => exact ih
  | gap _ _ ih => exact ih
  | token _ _ _ hfeed _ ih => rw [feedAll_cons, hfeed]; exact ih

/-- **A text that goes on on the next line** is scanned as before, and what comes then
after it. -/
theorem append_line (h : Scans p here skip cs ls q)
    (hrest : Scans q ((here.afterAll cs).after '\n') 0 rest ms r) :
    Scans p here skip (cs ++ '\n' :: rest) (ls ++ ms) r := by
  induction h with
  | done => exact .gap rfl hrest
  | skip _ ih => exact .skip (ih hrest)
  | gap hread _ ih =>
    refine .gap ?_ (ih hrest)
    rw [← hread]
    exact Lexeme.read_append (List.cons_ne_nil _ _) (by simp [hread])
  | token hread hfirst hpast hfeed _ ih =>
    refine .token ?_ hfirst hpast hfeed (ih hrest)
    rw [← hread]
    exact Lexeme.read_append (List.cons_ne_nil _ _) (by simp [hread])

/-- **A text is scanned as its lines are**, if nothing after the break can close a
string. -/
theorem of_append_line (hquote : '"' ∉ rest) (hskip : skip ≤ cs.length)
    (h : Scans p here skip (cs ++ '\n' :: rest) ls r) :
    ∃ ls₁ ls₂ q there, ls = ls₁ ++ ls₂ ∧ Scans p here skip cs ls₁ q ∧
      Scans q there 0 rest ls₂ r := by
  induction cs generalizing p here skip ls with
  | nil =>
    obtain rfl := Nat.le_zero.mp hskip
    cases h with
    | gap hread hrest =>
      obtain rfl := Option.some.inj (Lexeme.read_eq_gap.mp hread)
      exact ⟨[], ls, p, _, rfl, .done, hrest⟩
    | token hread => exact nomatch (Lexeme.read_eq_token.mp hread).1
  | cons c cs ih =>
    have hsame : ∀ wanted, Lexeme.read wanted (c :: (cs ++ '\n' :: rest)) =
        Lexeme.read wanted (c :: cs) :=
      fun _ => Lexeme.read_append_of_not_mem (List.cons_ne_nil c cs) hquote
    rw [List.length_cons] at hskip
    rw [List.cons_append] at h
    cases h with
    | skip hrest =>
      obtain ⟨ls₁, ls₂, q, there, rfl, hfirst, hsecond⟩ := ih (by omega) hrest
      exact ⟨ls₁, ls₂, q, there, rfl, .skip hfirst, hsecond⟩
    | gap hread hrest =>
      rw [hsame] at hread
      have hle := (Lexeme.gap?_bounds (Lexeme.read_eq_gap.mp hread)).2
      rw [List.length_cons] at hle
      obtain ⟨ls₁, ls₂, q, there, rfl, hfirst, hsecond⟩ := ih (by omega) hrest
      exact ⟨ls₁, ls₂, q, there, rfl, .gap hread hfirst, hsecond⟩
    | token hread hfrom hpast hfeed hrest =>
      rw [hsame] at hread
      have hle := (Lexeme.token?_front (Lexeme.read_eq_token.mp hread).2).2.length_le
      rw [List.length_cons] at hle
      obtain ⟨ls₁, ls₂, q, there, rfl, hfirst, hsecond⟩ := ih (by omega) hrest
      exact ⟨_ :: ls₁, ls₂, q, there, rfl, .token hread hfrom hpast hfeed hfirst, hsecond⟩

/-- **A text is scanned further down as it is by itself**, by a run that keeps up: what
the first run finds and reads next, it finds and reads as well. The relation between
the runs can depend on the lexemes that are still to be read. -/
theorem simulate {R : List Lexeme → Progress → Progress → Prop}
    (hR : ∀ {p p' q l ls s}, R (l :: ls) p p' →
      Lexeme.read p.wanted s = .token l.kind l.text.toList → p.feed l = .ok q →
      Lexeme.read p'.wanted s = .token l.kind l.text.toList ∧
        ∃ q', p'.feed (l.moved chars lines) = .ok q' ∧ R ls q q')
    (h : Scans p here skip cs ls q) (hp : R ls p p') :
    ∃ q', Scans p' (here.moved chars lines) skip cs (ls.map (Lexeme.moved chars lines)) q' ∧
      R [] q q' := by
  induction h generalizing p' with
  | done => exact ⟨p', .done, hp⟩
  | skip _ ih =>
    obtain ⟨q', hs, hq⟩ := ih hp
    exact ⟨q', .skip (Place.after_moved .. ▸ hs), hq⟩
  | gap hread _ ih =>
    obtain ⟨q', hs, hq⟩ := ih hp
    exact ⟨q', .gap (Lexeme.read_eq_gap.mpr (Lexeme.read_eq_gap.mp hread))
      (Place.after_moved .. ▸ hs), hq⟩
  | token hread hfirst hpast hfeed _ ih =>
    obtain ⟨hread', q', hfeed', hq⟩ := hR hp hread hfeed
    obtain ⟨r', hs, hr⟩ := ih hq
    have hfirst' := congrArg (Place.moved chars lines) hfirst
    refine ⟨r', .token hread' hfirst' ?_ hfeed' (Place.after_moved .. ▸ hs), hr⟩
    rw [Place.afterAll_moved]
    exact congrArg (Place.moved chars lines) hpast

end Scans

end Progress

/-- **A text that is read is scanned** as its lexemes. -/
theorem Parsed.scans {text : String} {parsed : Parsed} (h : Parsed.ofText text = .ok parsed) :
    ∃ q, Progress.start.Scans .start 0 text.toList parsed.lexemes q ∧ q.finish = .ok parsed := by
  obtain ⟨ls, q, hscans, hfinish⟩ := Progress.exists_scans (Nat.zero_le _) h
  have hall : (Progress.start.feedAll ls >>= Progress.finish) = .ok parsed := by
    rw [hscans.feedAll]
    exact hfinish
  rw [(Progress.finish_feedAll_iff.mp hall).1]
  exact ⟨q, hscans, hfinish⟩

end LoxForms
