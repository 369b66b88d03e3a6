import LoxForms.Proofs.Parsing.Cutting
/-!
# Texts line by line

A text can be made of other texts that stand on lines of their own, one below the other.
If each of these has lexemes of its own (`Lined`), then it is scanned by itself, from where
the text before it has led to (`LineScans`). And what comes after the first lines of a text
is scanned as it is after these lines alone (`Scans.resume`).
-/

namespace LoxForms

attribute [ext] Lexeme

theorem String.intercalate_append_cons {sep s : String} {ss more : List String} (hne : ss ≠ []) :
    sep.intercalate (ss ++ s :: more) =
      sep.intercalate ss ++ sep ++ sep.intercalate (s :: more) := by
  induction ss with
  | nil => exact absurd rfl hne
  | cons t ss ih =>
    cases ss with
    | nil => rw [List.singleton_append, String.intercalate_cons_cons, String.intercalate_singleton]
    | cons u ss =>
      rw [List.cons_append, List.cons_append, String.intercalate_cons_cons, ← List.cons_append,
        ih (List.cons_ne_nil u ss), String.intercalate_cons_cons, String.append_assoc,
        String.append_assoc, String.append_assoc, String.append_assoc, String.append_assoc]

/-- Texts on lines of their own, from an offset on, with the lexemes that stand in each of
them. -/
inductive Lined : Nat → List String → List (List Lexeme) → Prop
  | nil {n : Nat} : Lined n [] []
  | cons {n : Nat} {s : String} {ss : List String} {w : List Lexeme} {ws : List (List Lexeme)} :
      (∀ l ∈ w, n ≤ l.first.offset ∧ l.past.offset ≤ n + s.length) →
      Lined (n + s.length + 1) ss ws → Lined n (s :: ss) (w :: ws)

theorem Lined.le_first {n : Nat} {ss : List String} {ws : List (List Lexeme)} (h : Lined n ss ws) :
    ∀ l ∈ ws.flatten, n ≤ l.first.offset := by
  induction h with
  | nil => exact List.forall_mem_nil _
  | cons hw _ ih =>
    refine List.forall_mem_append.mpr ⟨fun l hl => (hw l hl).1, fun l hl => ?_⟩
    have := ih l hl
    omega

namespace Progress

variable {p q r : Progress} {here : Place} {skip : Nat} {cs rest : List Char}
variable {ls ms : List Lexeme}

namespace Scans

/-- What is read lies behind what is passed over at first. -/
theorem le_first (h : Scans p here skip cs ls q) :
    ∀ l ∈ ls, here.offset + skip ≤ l.first.offset ∧ l.first.offset ≤ l.past.offset := by
  induction h with
  | done => exact List.forall_mem_nil _
  | skip _ ih | gap _ _ ih =>
    intro l hl
    have := ih l hl
    rw [Place.offset_after] at this
    omega
  | token _ hfirst hpast _ _ ih =>
    refine List.forall_mem_cons.mpr ⟨?_, fun l hl => ?_⟩
    · rw [hpast, hfirst, Place.offset_afterAll]
      omega
    · have := ih l hl
      rw [Place.offset_after] at this
      omega

/-- **A line is scanned by itself** if it has lexemes of its own. -/
theorem of_line (hskip : skip ≤ cs.length)
    (hls : ∀ l ∈ ls, l.past.offset ≤ here.offset + cs.length)
    (hms : ∀ l ∈ ms, here.offset + cs.length < l.first.offset)
    (h : Scans p here skip (cs ++ '\n' :: rest) (ls ++ ms) r) :
    ∃ q, Scans p here skip cs ls q ∧ Scans q ((here.afterAll cs).after '\n') 0 rest ms r := by
  induction cs generalizing p here skip ls with
  | nil =>
    obtain rfl := Nat.le_zero.mp hskip
    generalize hall : ls ++ ms = all at h
    cases h with
    | gap hread hrest =>
      obtain rfl := Option.some.inj (Lexeme.read_eq_gap.mp hread)
      subst hall
      cases ls with
      | nil => exact ⟨p, .done, hrest⟩
      | cons l ls =>
        have hfrom := hrest.le_first l List.mem_cons_self
        have hto := hls l List.mem_cons_self
        rw [Place.offset_after] at hfrom
        rw [List.length_nil] at hto
        omega
    | token hread => exact nomatch (Lexeme.read_eq_token.mp hread).1
  | cons c cs ih =>
    have hoffset : (here.after c).offset + cs.length = here.offset + (c :: cs).length := by
      rw [Place.offset_after, List.length_cons]
      omega
    rw [List.length_cons] at hskip
    rw [← hoffset] at hls hms
    rw [List.cons_append] at h
    generalize hall : ls ++ ms = all at h
    cases h with
    | skip hrest =>
      obtain ⟨q, hfirst, hsecond⟩ := ih (by omega) hls hms (hall ▸ hrest)
      exact ⟨q, .skip hfirst, hsecond⟩
    | gap hread hrest =>
      have hgap := Lexeme.read_eq_gap.mp hread
      rw [← List.cons_append, Lexeme.gap?_append (List.cons_ne_nil c cs)] at hgap
      have hle := (Lexeme.gap?_bounds hgap).2
      rw [List.length_cons] at hle
      obtain ⟨q, hfirst, hsecond⟩ := ih (by omega) hls hms (hall ▸ hrest)
      exact ⟨q, .gap (Lexeme.read_eq_gap.mpr hgap) hfirst, hsecond⟩
    | @token _ _ _ _ _ _ l _ hread hfrom hpast hfeed hrest =>
      cases ls with
      | nil =>
        have hlate := hms l (by rw [show ms = _ from hall]; exact List.mem_cons_self)
        rw [hfrom, Place.offset_after] at hlate
        omega
      | cons l' ls =>
        obtain ⟨rfl, hrest'⟩ := List.cons.inj hall
        have hlength : l'.text.toList.length ≤ (c :: cs).length := by
          have hto := hls l' List.mem_cons_self
          rw [hpast, Place.offset_afterAll, hoffset] at hto
          omega
        have hread' := Lexeme.read_of_append (List.cons_ne_nil c cs) hread hlength
        rw [List.length_cons] at hlength
        obtain ⟨q, hfirst, hsecond⟩ := ih (by omega)
          (fun l hl => hls l (List.mem_cons_of_mem _ hl)) hms (hrest' ▸ hrest)
        exact ⟨q, .token hread' hfrom hpast hfeed hfirst, hsecond⟩

/-- **What comes after some lines is scanned as it is after these lines alone.** -/
theorem resume (h : Scans p here skip cs ls q)
    (hall : Scans p here skip (cs ++ '\n' :: rest) ms r) :
    ∃ more, ms = ls ++ more ∧ Scans q ((here.afterAll cs).after '\n') 0 rest more r := by
  induction h generalizing ms with
  | done =>
    cases hall with
    | gap hread hrest =>
      obtain rfl := Option.some.inj (Lexeme.read_eq_gap.mp hread)
      exact ⟨ms, rfl, hrest⟩
    | token hread => exact nomatch (Lexeme.read_eq_token.mp hread).1
  | skip _ ih =>
    cases hall with
    | skip hrest => exact ih hrest
  | @gap p _ here n c cs _ hread _ ih =>
    have hsame : Lexeme.read p.wanted (c :: cs ++ '\n' :: rest) = .gap n :=
      (Lexeme.read_append (List.cons_ne_nil c cs) (by simp [hread])).trans hread
    cases hall with
    | gap hread' hrest =>
      obtain rfl := Lexeme.Reading.gap.inj (hsame.symm.trans hread')
      exact ih hrest
    | token hread' => exact nomatch hsame.symm.trans hread'
  | @token p _ _ here c cs l _ hread hfirst hpast hfeed _ ih =>
    have hsame : Lexeme.read p.wanted (c :: cs ++ '\n' :: rest) = .token l.kind l.text.toList :=
      (Lexeme.read_append (List.cons_ne_nil c cs) (by simp [hread])).trans hread
    cases hall with
    | gap hread' => exact nomatch hsame.symm.trans hread'
    | @token _ _ _ _ _ _ l' _ hread' hfirst' hpast' hfeed' hrest =>
      obtain ⟨hkind, htext⟩ := Lexeme.Reading.token.inj (hsame.symm.trans hread')
      rw [← htext, ← hpast] at hpast'
      obtain rfl : l = l' :=
        Lexeme.ext hkind (String.toList_injective htext) (hfirst.trans hfirst'.symm) hpast'.symm
      obtain rfl := Except.ok.inj (hfeed.symm.trans hfeed')
      obtain ⟨more, rfl, hmore⟩ := ih hrest
      exact ⟨more, rfl, hmore⟩

theorem resume_lines {s : String} {ss more : List String} (hne : ss ≠ [])
    (h : Scans p here 0 ("\n".intercalate ss).toList ls q)
    (hall : Scans p here 0 ("\n".intercalate (ss ++ s :: more)).toList ms r) :
    ∃ ls there, Scans q there 0 ("\n".intercalate (s :: more)).toList ls r := by
  rw [String.intercalate_append_cons hne, String.toList_append, String.toList_append,
    List.append_assoc] at hall
  obtain ⟨ls, -, hrest⟩ := h.resume hall
  exact ⟨ls, _, hrest⟩

end Scans

/-! ## Line by line -/

/-- Texts that are scanned one after the other, each as lexemes of its own. -/
inductive LineScans : Progress → List String → List (List Lexeme) → Progress → Prop
  | nil {p : Progress} : LineScans p [] [] p
  | cons {p q r : Progress} {here : Place} {s : String} {ss : List String} {w : List Lexeme}
      {ws : List (List Lexeme)} :
      Scans p here 0 s.toList w q → LineScans q ss ws r → LineScans p (s :: ss) (w :: ws) r

/-- **A text is scanned line by line**, if its lines have lexemes of their own. -/
theorem Scans.lines {n : Nat} {ss : List String} {ws : List (List Lexeme)} (hlined : Lined n ss ws)
    (hn : here.offset = n) (hne : ss ≠ [])
    (h : Scans p here 0 ("\n".intercalate ss).toList ws.flatten r) : LineScans p ss ws r := by
  induction hlined generalizing p here with
  | nil => exact absurd rfl hne
  | @cons n s ss w ws hw hrest ih =>
    cases hrest with
    | nil =>
      rw [String.intercalate_singleton] at h
      rw [List.flatten_cons, List.flatten_nil, List.append_nil] at h
      exact .cons h .nil
    | @cons _ s' ss w' ws hw' hrest =>
      have hlined := Lined.cons hw' hrest
      rw [String.intercalate_cons_cons, String.toList_append, String.toList_append,
        List.append_assoc, List.flatten_cons] at h
      subst hn
      obtain ⟨q, hfirst, hsecond⟩ := Scans.of_line (Nat.zero_le _)
        (fun l hl => by rw [String.length_toList]; exact (hw l hl).2)
        (fun l hl => by rw [String.length_toList]; exact hlined.le_first l hl) h
      refine .cons hfirst (ih ?_ (List.cons_ne_nil s' ss) hsecond)
      rw [Place.offset_after, Place.offset_afterAll, String.length_toList]

end Progress

end LoxForms
