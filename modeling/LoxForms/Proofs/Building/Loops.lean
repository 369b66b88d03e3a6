import LoxForms.Proofs.Building.Extracting
/-!
# Loops

A `for` loop is read as the `while` loop that it stands for, whatever texts its parts
are, and also where some of them are missing. The two loops are written with the same
parts in other places: the increment comes after the body and not before it, and a part
that is missing has no place at all, or a fixed text in its place.

Both texts are composed as the same value (`Composes.forLines`, `Composes.whileLines`).
The second one follows `Building.forLoop` step by step: a block of the body and the
increment, a loop around it, and a block of the initializer and the loop.
-/

namespace LoxForms

open Automaton Building

/-! ## Loops as texts -/

/-- The parts of a `for` loop, each of them a text. -/
structure ForParts where
  initializer : Option String
  condition : Option String
  increment : Option String
  body : String

namespace ForParts

/-- The `for` loop of these parts. A missing initializer leaves its semicolon. -/
def forLines (p : ForParts) : List String :=
  ["for", "(", p.initializer.getD ";"] ++
    (p.condition.toList ++ ";" :: (p.increment.toList ++ [")", p.body]))

/-- The body of a loop, with the increment after it. -/
def bodyLines (p : ForParts) : List String :=
  match p.increment with
  | none => [p.body]
  | some increment => "\x7b" :: ([p.body, increment, ";"] ++ ["\x7d"])

/-- The loop without the initializer. -/
def loopLines (p : ForParts) : List String :=
  ["while", "(", p.condition.getD "true", ")"] ++ p.bodyLines

/-- The `while` loop that the `for` loop stands for. -/
def whileLines (p : ForParts) : List String :=
  match p.initializer with
  | none => p.loopLines
  | some initializer => "\x7b" :: ((initializer :: p.loopLines) ++ ["\x7d"])

/-- What the parts have to be: the declaration of a variable or an expression statement,
two expressions, and a statement. -/
structure Fit (p : ForParts) : Prop where
  initializer : ∀ s ∈ p.initializer, ∃ v, StandsFor s v ∧
    (v.variant? = some .variableDeclaration ∨ v.variant? = some .expressionStatement)
  condition : ∀ s ∈ p.condition, ∃ e, StandsFor (s ++ "\n;") (.expressionStatement e)
  increment : ∀ s ∈ p.increment, ∃ e, StandsFor (s ++ "\n;") (.expressionStatement e)
  body : ∃ v, StandsFor p.body v ∧ v.isDeclaration = false

end ForParts

variable {after : TokenKind} {looks : Nat → Nat → Prop} {n : Nonterminal} {slots : List Slot}
variable {s : String} {ss : List String} {e u v : Value} {us vs : List Value}

namespace Grammar

theorem whileStmt_mem : named .whileStmt .whileStmt
    [.drop .whileWord, .drop .leftParen, .phrase .expression, .drop .rightParen,
      .phrase .statement] ∈ productions :=
  mem_of_statementRules (by simp [statementRules])

theorem block_mem : named .block .block
    [.drop .leftBrace, .phrase .declarations, .drop .rightBrace] ∈ productions :=
  mem_of_statementRules (by simp [statementRules])

/-- The condition and the increment of a `for` can be missing. -/
theorem forStmt_mem {condition increment : Slot}
    (hcondition : condition ∈ [.phrase .expression, .absent])
    (hincrement : increment ∈ [.phrase .expression, .absent]) :
    named .forStmt .forStmt
      [.drop .forWord, .drop .leftParen, .phrase .forInitializer, condition, .drop .semicolon,
        increment, .drop .rightParen, .phrase .statement] ∈ productions := by
  have all_rows : ∀ c ∈ [Slot.phrase .expression, .absent],
      ∀ i ∈ [Slot.phrase .expression, .absent], named .forStmt .forStmt
        [.drop .forWord, .drop .leftParen, .phrase .forInitializer, c, .drop .semicolon,
          i, .drop .rightParen, .phrase .statement] ∈ productions.toList := by decide +kernel
  exact Array.mem_toList_iff.mp (all_rows condition hcondition increment hincrement)

theorem forInitializer_mem {slot : Slot}
    (hslot : slot ∈ [.drop .semicolon, .phrase .varDecl, .phrase .exprStmt]) :
    named .forInitializer .forInitializer [slot] ∈ productions := by
  have all_rows : ∀ slot ∈ [Slot.drop .semicolon, .phrase .varDecl, .phrase .exprStmt],
      named .forInitializer .forInitializer [slot] ∈ productions.toList := by decide +kernel
  exact Array.mem_toList_iff.mp (all_rows slot hslot)

end Grammar

/-! ## Statements composed of parts -/

namespace Composes

theorem statement (hn : n ∈ [.exprStmt, .forStmt, .whileStmt, .block])
    (h : Composes after looks [.phrase n] ss [v]) :
    Composes after looks [.phrase .statement] ss [v] :=
  single (Grammar.statement_mem hn) h rfl

theorem declaration (h : Composes after looks [.phrase .statement] ss [v]) :
    Composes after looks [.phrase .declaration] ss [v] :=
  single (Grammar.declaration_mem (by simp)) h rfl

/-- A statement by itself is a program. -/
theorem program (h : Composes .endOfText here [.phrase .statement] ss [v]) (hv : v.isStatement) :
    Composes .endOfText here [.phrase .program] ss [.list [v]] :=
  named Grammar.program_mem.2 (single Grammar.declarations_mem.1 h.declaration rfl)
    (ofRule_start.mpr ⟨List.forall_mem_singleton.mpr hv, rfl⟩)

theorem exprStmt (P : Part .expression s e) (he : e.isExpression)
    (hopens : ∀ q o, (goto? q .expression).isSome → looks q o → opens o) :
    Composes after looks [.phrase .statement] [s, ";"] [.expressionStatement e] :=
  statement (by simp) (named Grammar.exprStmt_mem
    (part P hopens (by simp [Slot.firsts]) (drop rfl nil)) (ofRule_exprStmt.mpr ⟨he, rfl⟩))

theorem whileStmt (P : Part .expression s e) (he : e.isExpression)
    (hbody : Composes after here [.phrase .statement] ss [v]) (hv : v.isStatement) :
    Composes after looks [.phrase .statement] (["while", "(", s, ")"] ++ ss)
      [.whileStatement e v] := by
  have hcondition : Composes after here
      [.phrase .expression, .drop .rightParen, .phrase .statement] (s :: ")" :: ss) [e, v] :=
    part P (opens_here (by simp)) (by simp [Slot.firsts]) (drop rfl hbody)
  exact statement (n := .whileStmt) (by simp) (named Grammar.whileStmt_mem
    (drop rfl (drop rfl hcondition)) (ofRule_whileStmt.mpr ⟨he, hv, rfl⟩))

/-- A block of two statements. -/
theorem block (P : Part .declarations s u) (hu : u.isStatement)
    (h : Composes .rightBrace (inState P.last) [.phrase .statement] ss [v]) (hv : v.isStatement) :
    Composes after looks [.phrase .statement] ("\x7b" :: ((s :: ss) ++ ["\x7d"]))
      [.block (.list [u, v])] := by
  have hboth : Composes .rightBrace here [.phrase .declarations, .phrase .declaration] (s :: ss)
      [u, v] := part P (opens_here (by simp)) (by decide +kernel) h.declaration
  have hrow : Composes after here [.phrase .declarations, .drop .rightBrace] ((s :: ss) ++ ["\x7d"])
      ([u, v] ++ []) :=
    production Grammar.declarations_mem.2 (fun k hk => List.mem_singleton.mp hk ▸ hboth) rfl
      (drop rfl nil)
  exact statement (n := .block) (by simp) (named Grammar.block_mem (drop rfl hrow)
    (ofRule_block.mpr ⟨by simpa using ⟨hu, hv⟩, rfl⟩))

end Composes

/-! ## The parts of a loop -/

/-- A statement is all of a program, or of what a block contains. -/
def Part.declarations (P : Part .statement s v) : Part .declarations s v :=
  (P.through (Grammar.declaration_mem (by simp)) rfl rfl).through Grammar.declarations_mem.1 rfl rfl

/-- An expression between other parts of a loop, or none. -/
inductive Between : Option String → Slot → Value → Prop
  | given {s : String} {e : Value} :
      Part .expression s e → e.isExpression → Between (some s) (.phrase .expression) e
  | missing : Between none .absent .nil

/-- What comes first in a loop, or nothing: a semicolon then stands for it. -/
inductive Opening : Option String → Value → Prop
  | given {s : String} {v : Value} (P : Part .declarations s v) (Q : Part .forInitializer s v) :
      opens Q.last → v.isStatement → Opening (some s) v
  | missing : Opening none .nil

section

variable {initializer condition increment : Option String} {slot : Slot}

theorem Between.mem (h : Between condition slot e) : slot ∈ [.phrase .expression, .absent] := by
  cases h <;> simp

theorem Between.optional (h : Between condition slot e) : Optional Value.isExpression e := by
  cases h with
  | given _ he => exact .inr he
  | missing => exact .inl rfl

theorem Between.elseless {k : TokenKind} (h : Between condition slot e) (hk : k ≠ .elseWord) :
    .elseWord ∉ Slot.firsts after (slot :: .drop k :: slots) := by
  cases h with
  | given => exact (by decide : TokenKind.elseWord ∉ Nonterminal.expression.first)
  | missing => simpa [Slot.firsts] using hk.symm

/-- What comes after the expression does so in any state. -/
theorem Composes.between (h : Between condition slot e)
    (hopens : ∀ q o, (goto? q .expression).isSome → looks q o → opens o)
    (helse : .elseWord ∉ Slot.firsts after slots)
    (hrest : ∀ looks, Composes after looks slots ss vs) :
    Composes after looks (slot :: slots) (condition.toList ++ ss) (e :: vs) := by
  cases h with
  | given P _ => exact part P hopens helse (hrest _)
  | missing => exact absent helse (hrest _)

/-- A `for` loop without an initializer has a semicolon in its place. -/
theorem exists_part_semicolon : ∃ P : Part .forInitializer ";" .nil, opens P.last := by
  have all_read : ∃ r, table.opens r ∧ ∀ q < states.size,
      ((table.row q).gotos.lookup .forInitializer).isSome →
        (table.row q).shifts.lookup .semicolon = some r := by
    rw [← quickTable_eq]
    exact ⟨94, by decide +kernel⟩
  obtain ⟨r, hr, hstep⟩ := all_read
  have hmem := Grammar.forInitializer_mem List.mem_cons_self
  let P : Part .forInitializer ";" .nil :=
    { word := [⟨.semicolon, ";", .start, .start⟩]
      trees := [.node (.rule .forInitializer) []]
      states := [r]
      states_ne_nil := List.cons_ne_nil r []
      lands := fun k q _ hq => by
        obtain ⟨last, hlast⟩ := Option.isSome_iff_exists.mp hq
        have hlt := lt_size_of_step (a := .phrase .forInitializer) hlast
        exact .production hmem hq fun _ => .drop rfl (hstep q hlt hq) .done
      cuts := fun q _ => .spelled rfl q r
      build := rfl }
  exact ⟨P, table_opens.mp hr⟩

theorem Opening.exists_part (h : Opening initializer v) :
    (∃ P : Part .forInitializer (initializer.getD ";") v, opens P.last) ∧
      Optional Value.isStatement v := by
  cases h with
  | given _ Q hQ hv => exact ⟨⟨Q, hQ⟩, .inr hv⟩
  | missing => exact ⟨exists_part_semicolon, .inl rfl⟩

/-- To be the statement `true;`. -/
def Value.statesTrue : Value → Bool
  | expressionStatement (literal (bool b)) => b
  | _ => false

theorem Value.eq_of_statesTrue (h : v.statesTrue) :
    v = expressionStatement (literal (bool true)) := by
  unfold statesTrue at h
  split at h
  · rw [h]
  · cases h

/-- What a loop without a condition has in its place is `true`. -/
theorem Between.exists_condition (h : Between condition slot u) : ∃ e,
    Nonempty (Part .expression (condition.getD "true") e) ∧ e.isExpression ∧
      ∀ body, forLoop .nil u .nil body = .whileStatement e body := by
  cases h with
  | given P he =>
    exact ⟨u, ⟨P⟩, he, fun _ => forLoop_of_condition (Value.ne_nil_of_isExpression he)⟩
  | missing =>
    have htrue : ∃ v, StandsFor ("true" ++ "\n;") v ∧ v.statesTrue :=
      exists_standsFor (by decide +kernel) (by decide +kernel)
    obtain ⟨v, hv, hstates⟩ := htrue
    obtain rfl := Value.eq_of_statesTrue hstates
    obtain ⟨P, he⟩ := hv.exists_part_expression
    exact ⟨_, P, he, fun _ => rfl⟩

end

namespace Composes

variable {p : ForParts} {c i : Slot} {initializer condition increment body : Value}

/-- **The `for` loop of some parts.** -/
theorem forLines (hinitializer : Opening p.initializer initializer)
    (hcondition : Between p.condition c condition) (hincrement : Between p.increment i increment)
    (B : Part .statement p.body body) (hbody : body.isStatement) :
    Composes .endOfText looks [.phrase .statement] p.forLines
      [forLoop initializer condition increment body] := by
  obtain ⟨⟨P, hP⟩, hstatement⟩ := hinitializer.exists_part
  have hlast : Composes .endOfText here [.phrase .statement] [p.body] [body] :=
    part B (opens_here (by simp)) (by decide) nil
  have hsecond : Composes .endOfText here [i, .drop .rightParen, .phrase .statement]
      (p.increment.toList ++ [")", p.body]) [increment, body] :=
    between hincrement (opens_here (by simp)) (by decide) fun _ => drop rfl hlast
  have hfirst : Composes .endOfText (inState P.last)
      [c, .drop .semicolon, i, .drop .rightParen, .phrase .statement]
      (p.condition.toList ++ ";" :: (p.increment.toList ++ [")", p.body]))
      [condition, increment, body] := by
    refine between hcondition ?_ (by simp [Slot.firsts]) fun _ => drop rfl hsecond
    rintro _ _ - rfl
    exact hP
  have hrow : Composes .endOfText here [.phrase .forInitializer, c, .drop .semicolon, i,
      .drop .rightParen, .phrase .statement] (p.initializer.getD ";" :: (p.condition.toList ++
        ";" :: (p.increment.toList ++ [")", p.body]))) [initializer, condition, increment, body] :=
    part P (opens_here (by simp)) (hcondition.elseless (by decide)) hfirst
  exact statement (n := .forStmt) (by simp)
    (named (Grammar.forStmt_mem hcondition.mem hincrement.mem) (drop rfl (drop rfl hrow))
      (ofRule_forStmt.mpr
        ⟨hbody, hincrement.optional, hcondition.optional, hstatement, rfl⟩))

/-- The increment comes after the body, in a block with it. -/
theorem bodyLines (hincrement : Between p.increment i increment) (B : Part .statement p.body body)
    (hB : opens B.last) (hbody : body.isStatement) (hafter : after ≠ .elseWord) :
    ∃ v, Composes after here [.phrase .statement] p.bodyLines [v] ∧ v.isStatement ∧
      ∀ condition, forLoop .nil condition increment body = forLoop .nil condition .nil v := by
  obtain ⟨_, _, _, s⟩ := p
  cases hincrement with
  | given E he =>
    have hopens : ∀ q o, (goto? q .expression).isSome → inState B.declarations.last q o →
        opens o := by
      rintro _ _ - rfl
      exact hB
    exact ⟨_, block B.declarations hbody (exprStmt E he hopens) rfl, rfl,
      fun _ => forLoop_of_increment (Value.ne_nil_of_isExpression he)⟩
  | missing =>
    have helse : .elseWord ∉ Slot.firsts after [] := by simpa [Slot.firsts] using hafter.symm
    exact ⟨body, part B (opens_here (by simp)) helse nil, hbody, fun _ => rfl⟩

/-- The loop around the body. -/
theorem loopLines (hcondition : Between p.condition c condition)
    (hincrement : Between p.increment i increment) (B : Part .statement p.body body)
    (hB : opens B.last) (hbody : body.isStatement) (hafter : after ≠ .elseWord) :
    Composes after looks [.phrase .statement] p.loopLines
      [forLoop .nil condition increment body] := by
  obtain ⟨v, hv, hstatement, hloop⟩ := bodyLines hincrement B hB hbody hafter
  obtain ⟨e, ⟨E⟩, he, hcond⟩ := hcondition.exists_condition
  rw [hloop, hcond]
  exact whileStmt E he hv hstatement

/-- **The `while` loop that it stands for.** The initializer comes before the loop, in a
block with it. -/
theorem whileLines (hinitializer : Opening p.initializer initializer)
    (hcondition : Between p.condition c condition) (hincrement : Between p.increment i increment)
    (B : Part .statement p.body body) (hB : opens B.last) (hbody : body.isStatement) :
    Composes .endOfText looks [.phrase .statement] p.whileLines
      [forLoop initializer condition increment body] := by
  have hloop : ∀ {after looks}, after ≠ .elseWord → Composes after looks [.phrase .statement]
      p.loopLines [forLoop .nil condition increment body] :=
    loopLines hcondition hincrement B hB hbody
  unfold ForParts.whileLines
  generalize p.initializer = s at hinitializer
  cases hinitializer with
  | given P _ _ hv =>
    rw [forLoop_of_initializer (Value.ne_nil_of_isStatement hv)]
    exact block P hv (hloop (by decide)) isStatement_forLoop
  | missing => exact hloop (by decide)

end Composes

/-! ## Loops as programs -/

namespace StandsFor

/-- What can stand before a loop can stand in it. -/
theorem opening (h : StandsFor s v) (hv : v.variant? = some .variableDeclaration ∨
    v.variant? = some .expressionStatement) : Opening (some s) v := by
  obtain ⟨parsed, ts, hparsed, helse, hreads, hbuild, hstatement⟩ := h.exists_declaration
  have hvalues : (Shape.node (.rule .forInitializer)).values [v] = .ok [v] :=
    Shape.values_node.mpr ⟨v, ofNode_rule.mpr (ofRule_forInitializer.mpr ⟨hstatement, rfl⟩), rfl⟩
  rcases hv with hvariable | hexpression
  · obtain ⟨us, hin, hus⟩ := hreads.varDecl_of_declaration hbuild hvariable
    obtain ⟨P, hP⟩ := Program.exists_part (by simp) hparsed hin hus helse
    have D : Part .declaration s v := P.through (Grammar.declaration_mem (by simp)) rfl rfl
    exact .given (D.through Grammar.declarations_mem.1 rfl rfl)
      (P.through (Grammar.forInitializer_mem (by simp)) rfl hvalues) hP hstatement
  · obtain ⟨e, rfl⟩ := Value.variant?_eq_expressionStatement.mp hexpression
    obtain ⟨us, hin, hus⟩ := hreads.statement_of_declaration hbuild rfl
    obtain ⟨us, hin, hus⟩ := hin.exprStmt_of_statement hus
    obtain ⟨P, hP⟩ := Program.exists_part (by simp) hparsed hin hus helse
    have B : Part .statement s (.expressionStatement e) :=
      P.through (Grammar.statement_mem (by simp)) rfl rfl
    exact .given B.declarations (P.through (Grammar.forInitializer_mem (by simp)) rfl hvalues) hP
      hstatement

/-- A statement that is no declaration can be the body of a loop. -/
theorem exists_part_statement (h : StandsFor s v) (hv : v.isDeclaration = false) :
    (∃ B : Part .statement s v, opens B.last) ∧ v.isStatement := by
  obtain ⟨parsed, ts, hparsed, helse, hreads, hbuild, hstatement⟩ := h.exists_declaration
  obtain ⟨us, hin, hus⟩ := hreads.statement_of_declaration hbuild hv
  exact ⟨Program.exists_part (by simp) hparsed hin hus helse, hstatement⟩

end StandsFor

namespace ForParts

theorem exists_between {part : Option String}
    (h : ∀ s ∈ part, ∃ e, StandsFor (s ++ "\n;") (.expressionStatement e)) :
    ∃ slot e, Between part slot e := by
  cases part with
  | none => exact ⟨_, _, .missing⟩
  | some s =>
    obtain ⟨e, he⟩ := h s rfl
    obtain ⟨⟨P⟩, hsort⟩ := he.exists_part_expression
    exact ⟨_, _, .given P hsort⟩

theorem exists_opening {part : Option String} (h : ∀ s ∈ part, ∃ v, StandsFor s v ∧
    (v.variant? = some .variableDeclaration ∨ v.variant? = some .expressionStatement)) :
    ∃ v, Opening part v := by
  cases part with
  | none => exact ⟨_, .missing⟩
  | some s =>
    obtain ⟨v, hv, hsort⟩ := h s rfl
    exact ⟨v, hv.opening hsort⟩

end ForParts

/-- **A `for` loop is read as the `while` loop that it stands for**, up to the lines. -/
theorem Program.ofText_forLines {p : ForParts} (h : p.Fit) : ∃ looped unrolled,
    ofText ("\n".intercalate p.forLines) = .ok looped ∧
      ofText ("\n".intercalate p.whileLines) = .ok unrolled ∧
      looped.map Value.unplaced = unrolled.map Value.unplaced := by
  obtain ⟨initializer, hinitializer⟩ := ForParts.exists_opening h.initializer
  obtain ⟨_, condition, hcondition⟩ := ForParts.exists_between h.condition
  obtain ⟨_, increment, hincrement⟩ := ForParts.exists_between h.increment
  obtain ⟨body, hbody, hdeclares⟩ := h.body
  obtain ⟨⟨B, hB⟩, hstatement⟩ := hbody.exists_part_statement hdeclares
  have hlooped := (Composes.forLines hinitializer hcondition hincrement B hstatement).program
    isStatement_forLoop
  have hunrolled := (Composes.whileLines hinitializer hcondition hincrement B hB
    hstatement).program isStatement_forLoop
  obtain ⟨looped, htext, hvalue⟩ := hlooped.ofText
  obtain ⟨unrolled, htext', hvalue'⟩ := hunrolled.ofText
  exact ⟨looped, unrolled, htext, htext', hvalue.trans hvalue'.symm⟩

/-- A loop that counts, with all of its parts. -/
theorem Program.ofText_forLines_counting :
    ForParts.Fit ⟨some "var i;", some "i < n", some "i = i + 1", "print i;"⟩ ∧
    ∃ looped unrolled,
      ofText "for\n(\nvar i;\ni < n\n;\ni = i + 1\n)\nprint i;" = .ok looped ∧
      ofText "\x7b\nvar i;\nwhile\n(\ni < n\n)\n\x7b\nprint i;\ni = i + 1\n;\n\x7d\n\x7d" =
        .ok unrolled ∧
      looped.map Value.unplaced = unrolled.map Value.unplaced := by
  have hinitializer : ∃ v, StandsFor "var i;" v ∧ v.variant? == some .variableDeclaration :=
    exists_standsFor (by decide +kernel) (by decide +kernel)
  have hcondition : ∃ v, StandsFor ("i < n" ++ "\n;") v ∧ v.variant? == some .expressionStatement :=
    exists_standsFor (by decide +kernel) (by decide +kernel)
  have hincrement : ∃ v, StandsFor ("i = i + 1" ++ "\n;") v ∧
      v.variant? == some .expressionStatement :=
    exists_standsFor (by decide +kernel) (by decide +kernel)
  have hbody : ∃ v, StandsFor "print i;" v ∧ !v.isDeclaration :=
    exists_standsFor (by decide +kernel) (by decide +kernel)
  have hfit : ForParts.Fit ⟨some "var i;", some "i < n", some "i = i + 1", "print i;"⟩ := by
    refine ⟨?_, ?_, ?_, ?_⟩
    · rintro _ ⟨⟩
      obtain ⟨v, hv, hvariant⟩ := hinitializer
      exact ⟨v, hv, .inl (eq_of_beq hvariant)⟩
    · rintro _ ⟨⟩
      obtain ⟨v, hv, hvariant⟩ := hcondition
      obtain ⟨e, rfl⟩ := Value.variant?_eq_expressionStatement.mp (eq_of_beq hvariant)
      exact ⟨e, hv⟩
    · rintro _ ⟨⟩
      obtain ⟨v, hv, hvariant⟩ := hincrement
      obtain ⟨e, rfl⟩ := Value.variant?_eq_expressionStatement.mp (eq_of_beq hvariant)
      exact ⟨e, hv⟩
    · obtain ⟨v, hv, hdeclares⟩ := hbody
      exact ⟨v, hv, Bool.not_eq_true' _ ▸ hdeclares⟩
  have hfor : "\n".intercalate
      (ForParts.forLines ⟨some "var i;", some "i < n", some "i = i + 1", "print i;"⟩) =
      "for\n(\nvar i;\ni < n\n;\ni = i + 1\n)\nprint i;" := by decide +kernel
  have hwhile : "\n".intercalate
      (ForParts.whileLines ⟨some "var i;", some "i < n", some "i = i + 1", "print i;"⟩) =
      "\x7b\nvar i;\nwhile\n(\ni < n\n)\n\x7b\nprint i;\ni = i + 1\n;\n\x7d\n\x7d" := by
    decide +kernel
  have hread := Program.ofText_forLines hfit
  rw [hfor, hwhile] at hread
  exact ⟨hfit, hread⟩

end LoxForms
