import LoxForms.Proofs.Parsing.Spaced
import LoxForms.Proofs.Writing.Statements
/-!
# Writing a program and reading it

A program in normal form that is written down with spaces between its lexemes
is read as that very program, up to the lines of its tokens. Nothing needs to
be known of how the lexemes were chosen: `Program.ofText_of_writes` holds of
whatever can be written for the program.
-/

namespace LoxForms

open Building Value

/-- What counts of a lexeme does not depend on where it stands. -/
theorem Lexeme.sign_congr {l l' : Lexeme} (h : l.bare = l'.bare) : l.sign = l'.sign := by
  obtain ⟨hkind, htext⟩ := Prod.mk.inj h
  rw [sign, sign, hkind, htext]

theorem Lexeme.map_sign_congr {w w' : List Lexeme} (h : w.map bare = w'.map bare) :
    w.map sign = w'.map sign := by
  induction w generalizing w' with
  | nil =>
    obtain rfl := List.map_eq_nil_iff.mp h.symm
    rfl
  | cons l w ih =>
    obtain ⟨l', w', rfl, hl, hw⟩ := List.map_eq_cons_iff.mp h.symm
    rw [List.map_cons, List.map_cons, sign_congr hl, ih hw.symm]

namespace Value

variable {statements : List Value}

/-- The statements of a program, of which there may be none. -/
theorem regains_program (h : ∀ s ∈ statements, NormalStatement s) :
    Regains .endOfText [.phrase .program] (spellAll statements) [list statements] := by
  have hmade : ofRule .start statements = .ok (list statements) :=
    ofRule_start.mpr ⟨fun s hs => (h s hs).isStatement, rfl⟩
  by_cases hne : statements = []
  · subst hne
    exact .named (Grammar.mem_of_declarationRules (by simp [Grammar.declarationRules])) .done hmade
  · have hrow : Regains .endOfText [.phrase .declarations] (spellAll statements) statements :=
      regains_declarations (fun s hs => (h s hs).regained.1) hne (by decide)
    exact .named (Grammar.mem_of_declarationRules (by simp [Grammar.declarationRules])) hrow hmade

end Value

/-- What is regained from all lexemes with some signs comes out of the text that
is made of such lexemes. -/
theorem Regains.build_of_ofText {gs : List Sign} {v : Value} {w : List Lexeme}
    (h : Regains .endOfText [.phrase .program] gs [v]) (hw : ∀ l ∈ w, Lexeme.Spells l.kind l.text.toList)
    (hsigns : w.map Lexeme.sign = gs) :
    ∃ parsed, Parsed.ofText (" ".intercalate (w.map Lexeme.text)) = .ok parsed ∧
      ∃ u, parsed.tree.build Program.readLexeme = .ok u ∧ unplaced u = unplaced v := by
  obtain ⟨ts, -, hreads, -, -⟩ := h w hsigns
  obtain ⟨children, rfl⟩ := hreads.exists_program
  obtain ⟨parsed, htext, hlexemes, -⟩ := hreads.ofText_spaced hw
  -- the lexemes of the text are other ones, in other places, with the same signs
  obtain ⟨ts', us, hreads', hus, hvs⟩ := h parsed.lexemes (by rw [Lexeme.map_sign_congr hlexemes, hsigns])
  obtain rfl := hreads'.tree_unique (Parsed.reads htext)
  obtain ⟨u, hu, us, hnil, rfl⟩ := Tree.buildAll_cons_eq_ok.mp hus
  exact ⟨parsed, htext, u, hu, (List.cons.inj hvs).1⟩

namespace Program

/-- **Reading undoes writing.** Every program in normal form can be written, and
whatever it is written with, reading the text gives the program back, up to
lines. -/
theorem ofText_of_writes {program : List Value} (h : ∀ s ∈ program, NormalStatement s) :
    (∃ w, Writes w program) ∧
    ∀ w, Writes w program → ∃ back,
      ofText (" ".intercalate (w.map Lexeme.text)) = .ok back ∧
      back.map unplaced = program.map unplaced := by
  refine ⟨exists_writes h, fun w hw => ?_⟩
  obtain ⟨hspells, hsigns⟩ := hw
  obtain ⟨parsed, htext, u, hu, hback⟩ := (regains_program h).build_of_ofText hspells hsigns
  obtain ⟨back, rfl, hmap⟩ : ∃ back, u = .list back ∧ back.map unplaced = program.map unplaced := by
    rw [unplaced_list] at hback
    cases u with
    | list back => exact ⟨back, rfl, list.inj (unplaced_list back ▸ hback)⟩
    | _ => exact nomatch hback
  exact ⟨back, ofText_eq_ok.mpr ⟨parsed, htext, _, hu, rfl⟩, hmap⟩

/-- The branch before the `else` is not one that could take it, so it is written
without braces. -/
theorem ofText_of_writes_else : ∃ back,
    ofText "if ( a ) b . c = 1.50 - a ; else print - c ;" = .ok back ∧
    back.map unplaced = [.ifStatement (.variableName (.token .identifier "a" .nil 0))
      (.expressionStatement (.set (.variableName (.token .identifier "b" .nil 0))
        (.token .identifier "c" .nil 0)
        (.binary (.literal (.float (.ofRatio false 3 2))) (.token .minus "-" .nil 0)
          (.variableName (.token .identifier "a" .nil 0)))))
      (.print (.unary (.token .minus "-" .nil 0)
        (.variableName (.token .identifier "c" .nil 0))))] := by
  have hname : ∀ t ∈ ["a", "b", "c"], IsName (.token .identifier t .nil 0) :=
    fun t ht => ⟨t, 0, by revert t; decide, rfl⟩
  have hvariable (t : String) (ht : t ∈ ["a", "b", "c"]) :
      NormalExpression (.variableName (.token .identifier t .nil 0)) := .variableName (hname t ht)
  have hminus : IsOperator .minus (.token .minus "-" .nil 0) := ⟨0, rfl⟩
  have hnumber : NormalExpression (.literal (.float (.ofRatio false 3 2))) :=
    .literal (@IsDenoted.float "1.50" _ (by decide) (by decide +kernel))
  have hset : NormalExpression _ :=
    .set (hvariable "b" (by simp)) (by decide) (hname "c" (by simp))
      (.binary (by decide) hminus hnumber (hvariable "a" (by simp)) (by decide) (by decide))
  have hunary : NormalExpression _ :=
    .unary (by simp) hminus (hvariable "c" (by simp)) (by decide)
  have hif : NormalStatement _ :=
    .ifElseStatement (hvariable "a" (by simp)) (.expressionStatement hset) (by decide) (by decide)
      (.print hunary) (by decide)
  let w := Lexeme.placed .start
    [(.ifWord, "if"), (.leftParen, "("), (.identifier, "a"), (.rightParen, ")"),
      (.identifier, "b"), (.dot, "."), (.identifier, "c"), (.equal, "="), (.number, "1.50"),
      (.minus, "-"), (.identifier, "a"), (.semicolon, ";"), (.elseWord, "else"),
      (.printWord, "print"), (.minus, "-"), (.identifier, "c"), (.semicolon, ";")]
  have hjoin : " ".intercalate (w.map Lexeme.text) =
      "if ( a ) b . c = 1.50 - a ; else print - c ;" := by decide +kernel
  have hback := (ofText_of_writes (List.forall_mem_singleton.mpr hif)).2 w
    ⟨by decide +kernel, by decide +kernel⟩
  rw [hjoin] at hback
  exact hback

end Program

end LoxForms
