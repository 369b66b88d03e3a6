import LoxForms.Proofs.Lexeme.Words
import LoxForms.Proofs.Parsing.Resuming
import LoxForms.Proofs.Parsing.Scanning
/-!
# Cutting a text into words

Which words a text is cut into is settled by the states in which they are looked for.
`Cuts` keeps these and nothing else: no places, and no stacks. A scan cuts its text
(`Scans.cuts`), and a text that is cut in the states that some lexemes lead to is scanned
(`Cuts.scans`).

So a text can be taken out of one text and put into another one. It is cut the same in
every state where what is looked for is no more than before a program, but for a few
kinds that nothing else begins with (`Cuts.transfer`); and texts one below the other are
cut one after the other (`Pieces.cuts`).
-/

namespace LoxForms

open Automaton

/-! ## Where a declaration or an expression can begin -/

namespace Automaton

/-- Whether no more is looked for in a state than before a program, but for signs that
stand alone and an `else`, and all that an operand can be. -/
def opens (q : Nat) : Bool :=
  ((wanted q).all fun j =>
    (wanted 0).contains j || j == .elseWord || Lexeme.standsAlone j) &&
    [TokenKind.identifier, .number, .string].all (wanted q).contains

theorem opens_iff {q : Nat} : opens q ↔
    (∀ j ∈ wanted q, j ∈ wanted 0 ∨ j = .elseWord ∨ Lexeme.standsAlone j) ∧
      ∀ j ∈ [TokenKind.identifier, .number, .string], j ∈ wanted q := by
  simp only [opens, Bool.and_eq_true, List.all_eq_true, Bool.or_eq_true, List.contains_iff_mem,
    beq_iff_eq, or_assoc]

/-- The same, over kinds that are in no order. -/
def Source.opens (source : Source) (q : Nat) : Bool :=
  ((source.wanted q).all fun j =>
    (source.wanted 0).contains j || j == .elseWord || Lexeme.standsAlone j) &&
    [TokenKind.identifier, .number, .string].all (source.wanted q).contains

theorem table_opens {q : Nat} : table.opens q ↔ opens q := by
  simp only [opens_iff, Source.opens, Bool.and_eq_true, List.all_eq_true, Bool.or_eq_true,
    List.contains_iff_mem, beq_iff_eq, or_assoc, mem_table_wanted]

theorem opens_zero : opens 0 := by
  rw [← table_opens, ← quickTable_eq]
  decide +kernel

/-- **An expression, a statement and a declaration begin in such states.** -/
theorem opens_of_goto {q : Nat} {n : Nonterminal}
    (hn : n ∈ [.expression, .statement, .declaration, .declarations, .forInitializer])
    (h : (goto? q n).isSome) : opens q := by
  have all_open : ∀ q < states.size,
      ([.expression, .statement, .declaration, .declarations, .forInitializer].any fun n =>
        ((table.row q).gotos.lookup n).isSome) → table.opens q := by
    rw [← quickTable_eq]
    decide +kernel
  obtain ⟨r, hr⟩ := Option.isSome_iff_exists.mp h
  have hlt := lt_size_of_step (a := .phrase n) hr
  exact table_opens.mp (all_open q hlt (List.any_eq_true.mpr ⟨n, hn, h⟩))

end Automaton

/-- **So does what comes after a program.** -/
theorem Progress.AtEnd.opens {p : Progress} (h : p.AtEnd) : opens (Stack.top p.stack) := by
  obtain ⟨hsub, hnew⟩ := h.wanted
  exact opens_iff.mpr ⟨fun j hj => (hnew j hj).imp_right (Lexeme.standsAlone_of_closing j),
    fun j hj => hsub ((opens_iff.mp opens_zero).2 j hj)⟩

/-! ## Words and states -/

/-- A text that is cut into words, with the state that each of them leads to. A word
stands where it is found if its kind is looked for there. -/
inductive Cuts : Nat → Nat → List Char → List (TokenKind × String) → List Nat → Prop
  | done {q : Nat} : Cuts q 0 [] [] []
  | skip {q skip : Nat} {c : Char} {rest : List Char} {ws : List (TokenKind × String)}
      {qs : List Nat} : Cuts q skip rest ws qs → Cuts q (skip + 1) (c :: rest) ws qs
  | gap {q n : Nat} {c : Char} {rest : List Char} {ws : List (TokenKind × String)}
      {qs : List Nat} :
      Lexeme.gap? (c :: rest) = some n → Cuts q (n - 1) rest ws qs → Cuts q 0 (c :: rest) ws qs
  | word {q r : Nat} {k : TokenKind} {t : String} {c : Char} {rest : List Char}
      {ws : List (TokenKind × String)} {qs : List Nat} :
      (k ∈ wanted q → Lexeme.read (wanted q) (c :: rest) = .token k t.toList) →
      Cuts r (t.toList.length - 1) rest ws qs → Cuts q 0 (c :: rest) ((k, t) :: ws) (r :: qs)

namespace Cuts

variable {q skip : Nat} {cs rest : List Char} {ws ms : List (TokenKind × String)}
variable {qs rs : List Nat}

/-- **A text that goes on on the next line** is cut as before, and what comes then after
it. -/
theorem append_line (h : Cuts q skip cs ws qs) (hrest : Cuts (qs.getLastD q) 0 rest ms rs) :
    Cuts q skip (cs ++ '\n' :: rest) (ws ++ ms) (qs ++ rs) := by
  induction h with
  | done => exact .gap rfl hrest
  | skip _ ih => exact .skip (ih hrest)
  | gap hgap _ ih =>
    refine .gap ?_ (ih hrest)
    rw [← hgap]
    exact Lexeme.gap?_append (List.cons_ne_nil _ _)
  | word hread _ ih =>
    rw [List.getLastD_cons] at hrest
    refine .word (fun hk => ?_) (ih hrest)
    rw [← hread hk]
    exact Lexeme.read_append (List.cons_ne_nil _ _) (by simp [hread hk])

/-- **A text is cut the same from another state on** if its first word is found there. -/
theorem elsewhere {r : Nat} (h : Cuts q skip cs ws qs)
    (hfirst : ∀ w ∈ ws.head?, ∀ s, (w.1 ∈ wanted q →
      Lexeme.read (wanted q) s = .token w.1 w.2.toList) → w.1 ∈ wanted r →
        Lexeme.read (wanted r) s = .token w.1 w.2.toList) : Cuts r skip cs ws qs := by
  induction h with
  | done => exact .done
  | skip _ ih => exact .skip (ih hfirst)
  | gap hgap _ ih => exact .gap hgap (ih hfirst)
  | word hread hrest _ => exact .word (hfirst _ rfl _ hread) hrest

/-- **What is cut from before a program on is cut from other states on**, if its first
word is one that is looked for there, and no `else`. -/
theorem transfer (h : Cuts 0 skip cs ws qs) (hq : opens q)
    (hfirst : ∀ w ∈ ws.head?, w.1 ∈ wanted 0 ∧ w.2 ≠ "else") : Cuts q skip cs ws qs := by
  obtain ⟨hnew, hoperands⟩ := opens_iff.mp hq
  refine h.elsewhere fun w hw s hread hk' => ?_
  obtain ⟨hk, helse⟩ := hfirst w hw
  obtain ⟨hgap, htoken⟩ := Lexeme.read_eq_token.mp (hread hk)
  have hspelling : TokenKind.elseWord.spelling? ≠ some w.2.toList := by
    intro heq
    exact helse (String.toList_injective (Option.some.inj heq).symm)
  have hboth : ∀ j ∈ [TokenKind.identifier, .number, .string], j ∈ wanted 0 ∧ j ∈ wanted q :=
    fun j hj => ⟨(opens_iff.mp opens_zero).2 j hj, hoperands j hj⟩
  exact Lexeme.read_eq_token.mpr
    ⟨hgap, Lexeme.token?_transfer hnew hboth hk hk' hspelling htoken⟩

/-- **What begins with a name is cut the same wherever this name is not reserved.** -/
theorem transfer_name {r : Nat} (h : Cuts q skip cs ws qs)
    (hfirst : ∀ w ∈ ws.head?, w.1 = .identifier ∧ .identifier ∈ wanted q ∧
      ∀ k ∈ TokenKind.words, k ∈ wanted r → k.spelling? ≠ some w.2.toList) :
    Cuts r skip cs ws qs := by
  refine h.elsewhere fun w hw s hread hr => ?_
  obtain ⟨hid, hq, hfree⟩ := hfirst w hw
  rw [hid] at hread hr ⊢
  obtain ⟨hgap, htoken⟩ := Lexeme.read_eq_token.mp (hread hq)
  obtain ⟨-, hword, -⟩ := Lexeme.token?_eq_identifier.mp htoken
  exact Lexeme.read_eq_token.mpr ⟨hgap, Lexeme.token?_eq_identifier.mpr ⟨hr, hword, hfree⟩⟩

/-- **What begins with a name begins with a reserved word** where this name is one. -/
theorem feeds_word {t : String} {k : TokenKind} {p r : Progress} {here : Place} {ls : List Lexeme}
    (h : Cuts q skip cs ((.identifier, t) :: ws) qs) (hq : .identifier ∈ wanted q)
    (hp : .identifier ∈ p.wanted) (hk : k ∈ TokenKind.words) (hwanted : k ∈ p.wanted)
    (hspelling : k.spelling? = some t.toList)
    (hscans : p.Scans here skip (cs ++ '\n' :: rest) ls r) :
    ∃ l p', l.kind = k ∧ p.feed l = .ok p' := by
  generalize hws : (TokenKind.identifier, t) :: ws = vs at h
  induction h generalizing here with
  | done => exact nomatch hws
  | skip _ ih =>
    cases hscans with
    | skip hscans => exact ih hq hscans hws
  | gap hgap _ ih =>
    rw [← Lexeme.gap?_append (List.cons_ne_nil _ _)] at hgap
    cases hscans with
    | gap hread hscans =>
      obtain rfl := Option.some.inj (hgap.symm.trans (Lexeme.read_eq_gap.mp hread))
      exact ih hq hscans hws
    | token hread => exact nomatch hgap.symm.trans (Lexeme.read_eq_token.mp hread).1
  | @word _ _ _ _ c cs _ _ hread _ _ =>
    obtain ⟨hw, -⟩ := List.cons.inj hws
    obtain ⟨rfl, rfl⟩ := Prod.mk.inj hw
    obtain ⟨hgap, htoken⟩ := Lexeme.read_eq_token.mp (hread hq)
    obtain ⟨-, hword, -⟩ := Lexeme.token?_eq_identifier.mp htoken
    rw [← Lexeme.gap?_append (List.cons_ne_nil c cs)] at hgap
    have hword : Lexeme.word? (c :: (cs ++ '\n' :: rest)) = some t.toList :=
      (Lexeme.word?_append (List.cons_ne_nil c cs) (Lexeme.severed_cons rfl rest)).trans hword
    cases hscans with
    | gap hread => exact nomatch hgap.symm.trans (Lexeme.read_eq_gap.mp hread)
    | @token _ _ _ _ _ _ l _ hread _ _ hfeed _ =>
      have htoken := (Lexeme.token?_of_word hp hword).symm.trans (Lexeme.read_eq_token.mp hread).2
      rw [Lexeme.kindOfWord_of_spelling hk hspelling hwanted] at htoken
      exact ⟨l, _, (Prod.mk.inj (Option.some.inj htoken)).1.symm, hfeed⟩

theorem passed (q : Nat) (cs : List Char) : Cuts q cs.length cs [] [] := by
  induction cs with
  | nil => exact .done
  | cons c cs ih => exact .skip ih

/-- A fixed spelling is one word. -/
theorem spelled {k : TokenKind} {t : String} (h : k.spelling? = some t.toList) (q r : Nat) :
    Cuts q 0 t.toList [(k, t)] [r] := by
  cases ht : t.toList with
  | nil => exact absurd ht (Lexeme.spelling?_ne_nil h)
  | cons c rest =>
    refine .word (fun hk => ?_) ?_
    · have hread := Lexeme.read_of_spells (.inl h) hk Lexeme.atBlank_nil
      rw [List.append_nil, ht] at hread
      rw [hread, ht]
    · rw [ht]
      exact passed r rest

end Cuts

namespace Progress

open Stack

/-- **A scan cuts its text** in the states that its lexemes lead to. -/
theorem Scans.cuts {p q : Progress} {here : Place} {skip : Nat} {cs : List Char}
    {ls : List Lexeme} (h : Scans p here skip cs ls q) :
    ∃ qs, p.Visits ls qs q ∧ Cuts (top p.stack) skip cs (ls.map Lexeme.bare) qs := by
  induction h with
  | done => exact ⟨[], .done, .done⟩
  | skip _ ih =>
    obtain ⟨qs, hvisits, hcuts⟩ := ih
    exact ⟨qs, hvisits, .skip hcuts⟩
  | gap hread _ ih =>
    obtain ⟨qs, hvisits, hcuts⟩ := ih
    exact ⟨qs, hvisits, .gap (Lexeme.read_eq_gap.mp hread) hcuts⟩
  | token hread _ _ hfeed _ ih =>
    obtain ⟨qs, hvisits, hcuts⟩ := ih
    exact ⟨_, .next hfeed hvisits, .word (fun _ => hread) hcuts⟩

/-- **A text that is cut in the states that some lexemes lead to is scanned**, as these
lexemes up to their places. -/
theorem scans_of_cuts {q : Progress} {skip o : Nat} {cs : List Char}
    {ws : List (TokenKind × String)} {qs : List Nat} (h : Cuts o skip cs ws qs) :
    ∀ {p p' : Progress} {ls : List Lexeme} (here : Place), top p.stack = o →
      ls.map Lexeme.bare = ws → p.Visits ls qs q → p.stack.IsPath → p.Alike p' →
      ∃ ls' q', Scans p' here skip cs ls' q' ∧ q.stack.IsPath ∧ q.Alike q' := by
  induction h with
  | done =>
    intro p p' ls here _ hls hvisits hp ha
    obtain rfl := List.map_eq_nil_iff.mp hls
    cases hvisits
    exact ⟨[], p', .done, hp, ha⟩
  | @skip _ skip c rest _ _ _ ih =>
    intro p p' ls here ho hls hvisits hp ha
    obtain ⟨ls', q', hs, hq⟩ := ih (here.after c) ho hls hvisits hp ha
    exact ⟨ls', q', .skip hs, hq⟩
  | @gap _ n c rest _ _ hgap _ ih =>
    intro p p' ls here ho hls hvisits hp ha
    obtain ⟨ls', q', hs, hq⟩ := ih (here.after c) ho hls hvisits hp ha
    exact ⟨ls', q', .gap (Lexeme.read_eq_gap.mpr hgap) hs, hq⟩
  | @word o r k t c rest ws qs hread _ ih =>
    intro p p' ls here ho hls hvisits hp ha
    obtain ⟨l, ls, rfl, hl, hls⟩ := List.map_eq_cons_iff.mp hls
    cases hvisits with
    | next hfeed hvisits =>
      have hk : k ∈ p.wanted := (Prod.mk.inj hl).1 ▸ mem_wanted_of_feed hfeed
      let l' : Lexeme := ⟨k, t, here, here.afterAll t.toList⟩
      have hl' : l'.bare = l.bare := hl.symm
      obtain ⟨p₁', hfeed', ha₁⟩ := ha.feed hp hl' hfeed
      obtain ⟨ls', q', hs, hq⟩ :=
        ih (here.after c) rfl hls hvisits (isPath_of_feed hp hfeed) ha₁
      refine ⟨_ :: ls', q', .token ?_ rfl rfl hfeed' hs, hq⟩
      subst ho
      rw [← ha.wanted_eq]
      exact hread hk

end Progress

/-! ## Texts one below the other -/

/-- Texts that are cut into words, each from the state on that the one before it leads
to. -/
inductive Pieces : Nat → List String → List (TokenKind × String) → List Nat → Prop
  | nil {q : Nat} : Pieces q [] [] []
  | cons {q : Nat} {s : String} {ss : List String} {ws ms : List (TokenKind × String)}
      {qs rs : List Nat} :
      Cuts q 0 s.toList ws qs → Pieces (qs.getLastD q) ss ms rs →
      Pieces q (s :: ss) (ws ++ ms) (qs ++ rs)

namespace Pieces

variable {q : Nat} {ss more : List String} {ws ms : List (TokenKind × String)} {qs rs : List Nat}

theorem append (h : Pieces q ss ws qs) (hmore : Pieces (qs.getLastD q) more ms rs) :
    Pieces q (ss ++ more) (ws ++ ms) (qs ++ rs) := by
  induction h with
  | nil => exact hmore
  | @cons q s ss ws ms' qs rs' hs hss ih =>
    have hlast : (qs ++ rs').getLastD q = rs'.getLastD (qs.getLastD q) := by
      rw [List.getLastD_eq_getLast?, List.getLast?_append, List.getLastD_eq_getLast?,
        List.getLastD_eq_getLast?, Option.getD_or]
    rw [hlast] at hmore
    rw [List.cons_append, List.append_assoc, List.append_assoc]
    exact .cons hs (ih hmore)

/-- **Texts one below the other are cut one after the other.** -/
theorem cuts (h : Pieces q ss ws qs) : Cuts q 0 ("\n".intercalate ss).toList ws qs := by
  induction h with
  | nil => exact .done
  | @cons q s ss ws ms qs rs hs hss ih =>
    cases ss with
    | nil =>
      cases hss
      rw [String.intercalate_singleton, List.append_nil, List.append_nil]
      exact hs
    | cons s' ss =>
      rw [String.intercalate_cons_cons, String.toList_append, String.toList_append,
        List.append_assoc]
      exact hs.append_line ih

end Pieces

end LoxForms
