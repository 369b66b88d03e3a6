import LoxForms.Proofs.Building.Passing
import LoxForms.Proofs.Grammar.NearestElse
/-!
# Branches

What stands in the branches of a program's statements: no declaration; and before an
`else` no statement that could take the `else` itself. Such a statement goes on, by the
`else` of an `if` and by the body of a loop, to an `if` that has none (`Value.IsOpen`).

The values of a phrase are looked at together with the kind of the lexeme that comes
after them. A statement before an `else` is not open, because an `else` is not missing
right before an `else` (`Reads`), and every other statement ends as its last part
does. From the productions of statements this is seen one by one
(`branched_of_production`).
-/

namespace LoxForms

open Building Value

namespace Value

/-- To come to a statement by going on to the `else` of an `if` and to the body of
a loop. -/
inductive LeadsTo : Value → Value → Prop
  | refl (v : Value) : LeadsTo v v
  | elseBranch {condition thenBranch elseBranch v : Value} :
      LeadsTo elseBranch v → LeadsTo (ifStatement condition thenBranch elseBranch) v
  | body {condition body v : Value} : LeadsTo body v → LeadsTo (whileStatement condition body) v

/-- To lead to an `if` that has no `else`. -/
def IsOpen (v : Value) : Prop :=
  ∃ condition thenBranch, v.LeadsTo (ifStatement condition thenBranch nil)

/-- No declaration stands in a branch, nothing that is open before an `else`, and
nothing but functions in a class. -/
def Branched : Value → Prop
  | ifStatement _ thenBranch elseBranch =>
    thenBranch.isDeclaration = false ∧ elseBranch.isDeclaration = false ∧
      (elseBranch ≠ nil → ¬ thenBranch.IsOpen)
  | whileStatement _ body => body.isDeclaration = false
  | classDeclaration _ _ methods => ∃ items, methods = list items ∧ ∀ m ∈ items, IsFunction m
  | _ => True

section

variable {v : Value}

theorem endsOpen_of_isOpen (h : v.IsOpen) : v.endsOpen := by
  obtain ⟨c, t, h⟩ := h
  generalize hw : ifStatement c t nil = w at h
  induction h with
  | refl =>
    subst hw
    rfl
  | @elseBranch _ _ e _ _ ih =>
    by_cases he : e = nil
    · subst he
      rfl
    · rw [endsOpen_ifStatement he]
      exact ih hw
  | body _ ih => exact ih hw

theorem passes_branched : Passes Branched where
  other v htoken hbranching := by
    cases v <;> first | exact trivial | exact nomatch hbranching
  loop _ _ := rfl
  methods _ _ methods h := ⟨methods, rfl, h⟩

end

end Value

/-! ## Phrases and what comes after them -/

/-- To be no declaration, and not open before an `else`. -/
structure IsBranch (k : TokenKind) (v : Value) : Prop where
  given : v ≠ nil
  declares : v.isDeclaration = false
  closed : k = .elseWord → v.endsOpen = false

/-- Whether the values of a phrase are several ones in a row. -/
def Nonterminal.isSpliced (n : Nonterminal) : Bool :=
  Grammar.productions.toList.any fun p => p.phrase == n && p.shape == .splice

/-- The phrases that are made of several of a kind. -/
def Nonterminal.rows : List Nonterminal :=
  [declarations, methods, moreParameters, moreArguments, orTail, andTail, equalityTail,
   comparisonTail, termTail, factorTail]

/-- All other phrases have a single value. -/
theorem Nonterminal.isSpliced_eq_false {n : Nonterminal} (hn : n ∉ rows) :
    n.isSpliced = false := by
  have all_single : ∀ n ∈ all, n ∉ rows → n.isSpliced = false := by decide +kernel
  exact all_single n n.mem_all hn

theorem Nonterminal.isSpliced_expression : expression.isSpliced = false :=
  isSpliced_eq_false (by decide)

theorem Nonterminal.isSpliced_statement : statement.isSpliced = false :=
  isSpliced_eq_false (by decide)

/-- What is known of the values of a phrase before a lexeme of the kind `k`. -/
structure PhraseBefore (k : TokenKind) (n : Nonterminal) (us : List Value) : Prop where
  branched : ∀ u ∈ us, u.Throughout Branched
  single : n.isSpliced = false → us.length = 1
  branch : n.isStatement → ∀ u ∈ us, IsBranch k u

/-- What is known of the values of a row of slots before a lexeme of a kind. -/
def RowBefore (after : TokenKind) : List Slot → List Value → Prop
  | [], us => us = []
  | .keep _ :: slots, us =>
    ∃ v us', us = v :: us' ∧ v.Throughout Branched ∧ RowBefore after slots us'
  | .drop _ :: slots, us => RowBefore after slots us
  | .absent :: slots, us =>
    ∃ us', us = .nil :: us' ∧ (∃ k ∈ Slot.firsts after slots, k ≠ .elseWord) ∧
      RowBefore after slots us'
  | .phrase n :: slots, us =>
    ∃ us₁ us₂, us = us₁ ++ us₂ ∧ (∃ k ∈ Slot.firsts after slots, PhraseBefore k n us₁) ∧
      RowBefore after slots us₂

namespace RowBefore

variable {after : TokenKind} {slots : List Slot} {n : Nonterminal} {us : List Value} {u : Value}

theorem branched (h : RowBefore after slots us) : ∀ u ∈ us, u.Throughout Branched := by
  induction slots generalizing us with
  | nil =>
    obtain rfl : us = [] := h
    exact List.forall_mem_nil _
  | cons s slots ih =>
    cases s with
    | keep =>
      obtain ⟨v, us, rfl, hv, hrest⟩ := h
      exact List.forall_mem_cons.mpr ⟨hv, ih hrest⟩
    | drop => exact ih h
    | absent =>
      obtain ⟨us, rfl, -, hrest⟩ := h
      exact List.forall_mem_cons.mpr ⟨passes_branched.nil, ih hrest⟩
    | phrase =>
      obtain ⟨us₁, us₂, rfl, ⟨_, -, hphrase⟩, hrest⟩ := h
      exact List.forall_mem_append.mpr ⟨hphrase.branched, ih hrest⟩

/-- The value of a phrase that has a single one. -/
theorem phrase (h : RowBefore after (.phrase n :: slots) us) (hn : n.isSpliced = false) :
    ∃ u us', us = u :: us' ∧ (∃ k ∈ Slot.firsts after slots, PhraseBefore k n [u]) ∧
      RowBefore after slots us' := by
  obtain ⟨us₁, us₂, rfl, ⟨k, hk, hphrase⟩, hrest⟩ := h
  obtain ⟨u, rfl⟩ := List.length_eq_one_iff.mp (hphrase.single hn)
  exact ⟨u, us₂, rfl, ⟨k, hk, hphrase⟩, hrest⟩

/-- A row ends with the values of the phrase at its end. -/
theorem of_append {init : List Slot} (h : RowBefore after (init ++ [Slot.phrase n]) us) :
    ∃ us₁ us₂, us = us₁ ++ us₂ ∧ PhraseBefore after n us₂ := by
  induction init generalizing us with
  | nil =>
    obtain ⟨us, _, rfl, ⟨k, hk, hphrase⟩, rfl⟩ := h
    obtain rfl := List.mem_singleton.mp hk
    exact ⟨[], us, List.append_nil us, hphrase⟩
  | cons s init ih =>
    cases s with
    | keep =>
      obtain ⟨v, us, rfl, -, hrest⟩ := h
      obtain ⟨us₁, us₂, rfl, hlast⟩ := ih hrest
      exact ⟨v :: us₁, us₂, rfl, hlast⟩
    | drop => exact ih h
    | absent =>
      obtain ⟨us, rfl, -, hrest⟩ := h
      obtain ⟨us₁, us₂, rfl, hlast⟩ := ih hrest
      exact ⟨.nil :: us₁, us₂, rfl, hlast⟩
    | phrase =>
      obtain ⟨vs, us, rfl, -, hrest⟩ := h
      obtain ⟨us₁, us₂, rfl, hlast⟩ := ih hrest
      exact ⟨vs ++ us₁, us₂, (List.append_assoc ..).symm, hlast⟩

/-- The value of a statement at the end of a row. -/
theorem last (h : RowBefore after slots us) (hslots : slots.getLast? = some (.phrase .statement))
    (hu : us.getLast? = some u) : IsBranch after u := by
  obtain ⟨init, rfl⟩ := List.getLast?_eq_some_iff.mp hslots
  obtain ⟨us₁, us₂, rfl, hphrase⟩ := h.of_append
  obtain ⟨v, rfl⟩ := List.length_eq_one_iff.mp (hphrase.single Nonterminal.isSpliced_statement)
  rw [List.getLast?_append, List.getLast?_singleton, Option.some_or] at hu
  obtain rfl := Option.some.inj hu
  exact hphrase.branch rfl v List.mem_cons_self

end RowBefore

/-! ## Production by production -/

namespace Production

/-- Where the branches of what a production makes come from: those of a loop from a
statement at the end of a row, and the value of a statement that is one of several
from another statement. -/
def branches (p : Production) : Bool :=
  match p.shape with
  | .node (.rule .ifStmt) => p == Grammar.ifElse || p == Grammar.ifOnly
  | .node (.rule .whileStmt) | .node (.rule .forStmt) =>
    p.slots.getLast? == some (.phrase .statement)
  | .node (.rule r) => !p.phrase.isStatement || [.exprStmt, .printStmt, .returnStmt, .block].contains r
  | .node (.other _) => true
  | .nodeUnlessSingle (.rule r) =>
    !p.phrase.isStatement && r != .ifStmt && r != .whileStmt && r != .forStmt
  | .nodeUnlessSingle (.other _) =>
    !p.phrase.isStatement ||
      match p.slots with
      | [.phrase m] => m.isStatement
      | _ => false
  | .splice => !p.phrase.isStatement

end Production

theorem Grammar.branches_of_mem {p : Production} (hp : p ∈ productions) : p.branches := by
  have all_branches : ∀ p ∈ productions.toList, p.branches := by decide +kernel
  exact all_branches p (Array.mem_toList_iff.mpr hp)

section

variable {k : TokenKind} {p : Production} {r : Rule} {us vs : List Value} {v c t e : Value}

theorem isBranch_of_ofRule (hr : r ∈ [.exprStmt, .printStmt, .returnStmt, .block])
    (hv : ofRule r us = .ok v) : IsBranch k v := by
  simp only [List.mem_cons, List.not_mem_nil, or_false] at hr
  rcases hr with rfl | rfl | rfl | rfl
  · match us, hv with
    | [e], hv =>
      obtain ⟨-, rfl⟩ := ofRule_exprStmt.mp hv
      exact ⟨nofun, rfl, fun _ => rfl⟩
  · match us, hv with
    | [e], hv =>
      obtain ⟨-, rfl⟩ := ofRule_printStmt.mp hv
      exact ⟨nofun, rfl, fun _ => rfl⟩
  · match us, hv with
    | [e], hv =>
      obtain ⟨-, rfl⟩ := ofRule_returnStmt.mp hv
      exact ⟨nofun, rfl, fun _ => rfl⟩
  · obtain ⟨-, rfl⟩ := ofRule_block.mp hv
    exact ⟨nofun, rfl, fun _ => rfl⟩

theorem isBranch_forLoop {initializer condition increment body : Value} (h : IsBranch k body) :
    IsBranch k (forLoop initializer condition increment body) := by
  have hwhile : ∀ body, IsBranch k body → IsBranch k (forLoop .nil condition .nil body) := by
    intro body h
    cases condition <;> exact ⟨nofun, rfl, h.closed⟩
  have hrest : IsBranch k (forLoop .nil condition increment body) := by
    by_cases hnil : increment = .nil
    · subst hnil
      exact hwhile body h
    · rw [forLoop_of_increment hnil]
      exact hwhile _ ⟨nofun, rfl, fun _ => rfl⟩
  by_cases hnil : initializer = .nil
  · subst hnil
    exact hrest
  · rw [forLoop_of_initializer hnil]
    exact ⟨nofun, rfl, fun _ => rfl⟩

/-- A loop with the value of a statement as its body. -/
theorem isBranch_of_loop (hr : r = .whileStmt ∨ r = .forStmt)
    (hbody : ∀ b, us.getLast? = some b → IsBranch k b) (hv : ofRule r us = .ok v) :
    IsBranch k v := by
  rcases hr with rfl | rfl
  · match us, hv with
    | [c, b], hv =>
      obtain ⟨-, -, rfl⟩ := ofRule_whileStmt.mp hv
      exact ⟨nofun, rfl, (hbody b rfl).closed⟩
  · match us, hv with
    | [initializer, condition, increment, b], hv =>
      obtain ⟨-, -, -, -, rfl⟩ := ofRule_forStmt.mp hv
      exact isBranch_forLoop (hbody b rfl)

/-- **The branches of an `if`**, by how many there are. Where there is none before the
`else`, the lexeme that comes next is no `else`. -/
theorem branches_of_row (hp : p = Grammar.ifElse ∨ p = Grammar.ifOnly)
    (hrow : RowBefore k p.slots [c, t, e]) :
    Branched (ifStatement c t e) ∧ IsBranch k (ifStatement c t e) := by
  have hstatement := Nonterminal.isSpliced_statement
  rcases hp with rfl | rfl
  · have hhead : RowBefore k (.phrase .expression :: .drop .rightParen ::
        [.phrase .statement, .drop .elseWord, .phrase .statement]) [c, t, e] := hrow
    obtain ⟨_, _, hus, -, hbranches⟩ := hhead.phrase Nonterminal.isSpliced_expression
    obtain ⟨rfl, rfl⟩ := List.cons.inj hus
    obtain ⟨_, _, hus, ⟨j, hj, ht⟩, helse⟩ := RowBefore.phrase hbranches hstatement
    obtain ⟨rfl, rfl⟩ := List.cons.inj hus
    obtain ⟨_, _, hus, ⟨i, hi, he⟩, -⟩ := RowBefore.phrase helse hstatement
    obtain ⟨rfl, -⟩ := List.cons.inj hus
    obtain rfl : j = .elseWord := List.mem_singleton.mp hj
    obtain rfl : i = k := List.mem_singleton.mp hi
    have hthen : IsBranch .elseWord t := ht.branch rfl t List.mem_cons_self
    have helse : IsBranch i e := he.branch rfl e List.mem_cons_self
    refine ⟨⟨hthen.declares, helse.declares, fun _ hopen => ?_⟩, nofun, rfl, fun hi => ?_⟩
    · exact absurd (endsOpen_of_isOpen hopen) (by simp [hthen.closed rfl])
    · rw [endsOpen_ifStatement helse.given]
      exact helse.closed hi
  · have hhead : RowBefore k (.phrase .expression :: .drop .rightParen ::
        [.phrase .statement, .absent]) [c, t, e] := hrow
    obtain ⟨_, _, hus, -, hbranches⟩ := hhead.phrase Nonterminal.isSpliced_expression
    obtain ⟨rfl, rfl⟩ := List.cons.inj hus
    obtain ⟨_, _, hus, ⟨j, hj, ht⟩, hrest⟩ := RowBefore.phrase hbranches hstatement
    obtain ⟨rfl, rfl⟩ := List.cons.inj hus
    obtain ⟨_, hus, ⟨i, hi, hne⟩, -⟩ := hrest
    obtain ⟨rfl, -⟩ := List.cons.inj hus
    obtain rfl : i = k := List.mem_singleton.mp hi
    have hthen : IsBranch j t := ht.branch rfl t List.mem_cons_self
    exact ⟨⟨hthen.declares, rfl, fun h => absurd rfl h⟩, nofun, rfl, fun h => absurd h hne⟩

/-- What a rule makes in a production. -/
theorem before_of_ofRule (hp : p.branches) (hshape : p.shape = .node (.rule r))
    (hrow : RowBefore k p.slots us) (hv : ofRule r us = .ok v) :
    PhraseBefore k p.phrase [v] := by
  have hif : r = .ifStmt → ∀ c t e, us = [c, t, e] →
      Branched (ifStatement c t e) ∧ IsBranch k (ifStatement c t e) := by
    rintro rfl c t e rfl
    rw [Production.branches, hshape] at hp
    simp only [Bool.or_eq_true, beq_iff_eq] at hp
    exact branches_of_row hp hrow
  have hbody : r = .whileStmt ∨ r = .forStmt → ∀ b, us.getLast? = some b → IsBranch k b := by
    intro hr b hb
    rw [Production.branches, hshape] at hp
    refine hrow.last ?_ hb
    rcases hr with rfl | rfl <;> exact eq_of_beq hp
  refine ⟨List.forall_mem_singleton.mpr ?_, fun _ => rfl, fun hn =>
    List.forall_mem_singleton.mpr ?_⟩
  · exact passes_branched.ofRule hrow.branched (fun c t e hr hus => (hif hr c t e hus).1)
      (fun _ b hr hb => (hbody hr b hb).declares) hv
  · by_cases hr : r = .whileStmt ∨ r = .forStmt
    · exact isBranch_of_loop hr (hbody hr) hv
    by_cases hr' : r = .ifStmt
    · subst hr'
      match us, hv with
      | [c, t, e], hv =>
        obtain ⟨-, -, -, rfl⟩ := ofRule_ifStmt.mp hv
        exact (hif rfl c t e rfl).2
    · refine isBranch_of_ofRule ?_ hv
      rw [Production.branches, hshape] at hp
      cases r <;> simp_all

/-- A node of no rule is no statement. -/
theorem before_of_other {n : Nonterminal} {slots : List Slot} {name : String}
    (hrow : RowBefore k slots us) (hv : ofNode (.other name) us = .ok v) :
    PhraseBefore k n [v] := by
  obtain rfl := Except.ok.inj hv
  have hnode : (tree name us).Throughout Branched :=
    passes_branched.node rfl rfl (List.forall_mem_map.mpr hrow.branched)
  exact ⟨List.forall_mem_singleton.mpr hnode, fun _ => rfl,
    fun _ => List.forall_mem_singleton.mpr ⟨nofun, rfl, fun _ => rfl⟩⟩

/-- A chain, which is no statement. -/
theorem before_of_chain (hp : p.branches) (hshape : p.shape = .nodeUnlessSingle (.rule r))
    (hrow : RowBefore k p.slots us) (hv : ofRule r us = .ok v) : PhraseBefore k p.phrase [v] := by
  rw [Production.branches, hshape] at hp
  simp only [Bool.and_eq_true, Bool.not_eq_true', bne_iff_ne] at hp
  obtain ⟨⟨⟨hn, hif⟩, hwhile⟩, hfor⟩ := hp
  refine ⟨List.forall_mem_singleton.mpr ?_, fun _ => rfl, fun h => absurd h (by simp [hn])⟩
  exact passes_branched.ofRule hrow.branched (fun _ _ _ hr => absurd hr hif)
    (fun _ _ hr => absurd hr (not_or.mpr ⟨hwhile, hfor⟩)) hv

/-- A value that stands for itself. If the phrase is a statement, then so is the one
that has the value. -/
theorem before_of_single {l : Label} (hp : p.branches) (hshape : p.shape = .nodeUnlessSingle l)
    (hrow : RowBefore k p.slots [v]) : PhraseBefore k p.phrase [v] := by
  refine ⟨hrow.branched, fun _ => rfl, fun hn => ?_⟩
  rw [Production.branches, hshape] at hp
  cases l with
  | rule r => simp [hn] at hp
  | other name =>
    simp only [hn, Bool.not_true, Bool.false_or] at hp
    split at hp
    · rename_i m hslots
      rw [hslots] at hrow
      obtain ⟨us₁, us₂, hus, ⟨j, hj, hphrase⟩, rfl⟩ := hrow
      obtain rfl := List.mem_singleton.mp hj
      rw [List.append_nil] at hus
      subst hus
      exact hphrase.branch hp
    · exact absurd hp Bool.false_ne_true

/-- **What is known of what a production reads is known of its phrase.** -/
theorem before_of_production (hp : p ∈ Grammar.productions) (hrow : RowBefore k p.slots us)
    (hvalues : p.shape.values us = .ok vs) : PhraseBefore k p.phrase vs := by
  have hbranches := Grammar.branches_of_mem hp
  rcases Shape.values_eq_ok hvalues with ⟨l, v, hshape, hv, rfl⟩ | ⟨rfl, hshape⟩
  · cases l with
    | other name => exact before_of_other hrow hv
    | rule r =>
      rcases hshape with hshape | ⟨hshape, -⟩
      · exact before_of_ofRule hbranches hshape hrow (ofNode_rule.mp hv)
      · exact before_of_chain hbranches hshape hrow (ofNode_rule.mp hv)
  · rcases hshape with hshape | ⟨l, u, hshape, rfl⟩
    · rw [Production.branches, hshape, Bool.not_eq_true'] at hbranches
      have hspliced : p.phrase.isSpliced :=
        List.any_eq_true.mpr ⟨p, Array.mem_toList_iff.mpr hp, by simp [hshape]⟩
      exact ⟨hrow.branched, fun hn => absurd (hn.symm.trans hspliced) Bool.false_ne_true,
        fun hn => absurd (hbranches.symm.trans hn) Bool.false_ne_true⟩
    · exact before_of_single hbranches hshape hrow

/-- **What is read before a lexeme has its branches where they can be.** -/
theorem Reads.rowBefore {after : TokenKind} {slots : List Slot} {w : List Lexeme}
    {ts : List (Tree Lexeme)} {vs : List Value} (h : Reads after slots w ts)
    (hbuild : Tree.buildAll Program.readLexeme ts = .ok vs) : RowBefore after slots vs := by
  induction h generalizing vs with
  | done =>
    obtain rfl := Except.ok.inj hbuild
    rfl
  | keep _ _ ih =>
    obtain ⟨v, hv, ws, hws, rfl⟩ := Tree.buildAll_cons_eq_ok.mp hbuild
    obtain ⟨-, _, -, rfl⟩ := Program.readLexeme_eq_ok.mp hv
    exact ⟨_, ws, rfl, passes_branched.readLexeme hv trivial, ih hws⟩
  | drop _ _ ih => exact ih hbuild
  | absent hne hrest ih =>
    obtain ⟨v, hv, ws, hws, rfl⟩ := Tree.buildAll_cons_eq_ok.mp hbuild
    obtain rfl := Except.ok.inj hv
    exact ⟨ws, rfl, ⟨_, hrest.upcoming_mem, hne⟩, ih hws⟩
  | @phrase _ p _ _ _ _ _ hp _ hrest ihin ih =>
    obtain ⟨v₁, v₂, h₁, h₂, rfl⟩ := Tree.buildAll_append_eq_ok.mp hbuild
    obtain ⟨us, hus, hvalues⟩ := (Shape.buildAll_apply p.shape).mp h₁
    exact ⟨v₁, v₂, rfl, ⟨_, hrest.upcoming_mem, before_of_production hp (ihin hus) hvalues⟩,
      ih h₂⟩

end

namespace Program

/-- **Each `else` belongs to the nearest `if` that can take it, and branches hold no
declarations.** Wherever an `if` with an `else` stands in a program, its first branch
leads to no `if` without one; the branches of an `if` and the body of a loop are no
declarations, those of the loops and blocks that a `for` stands for included; and the
methods of a class are functions. -/
theorem branched_throughout {text : String} {statements : List Value} (h : ofText text = .ok statements) :
    ∀ s ∈ statements, ∀ v : Value, v.Within s → v.Branched := by
  obtain ⟨parsed, hparsed, v, hbuild, rfl⟩ := ofText_eq_ok.mp h
  have hrow : RowBefore .endOfText [.phrase .program] [v] :=
    (Parsed.reads hparsed).rowBefore (Tree.buildAll_cons_eq_ok.mpr ⟨v, hbuild, [], rfl, rfl⟩)
  have hv : v.Throughout Branched := hrow.branched v List.mem_cons_self
  intro s hs u hu
  cases v with
  | list items => exact hv.part (r := .item) (List.mem_map.mpr ⟨s, hs, rfl⟩) u hu
  | _ => exact absurd hs List.not_mem_nil

/-- An `else` goes past a `while` and a `for` to the nearest `if`, and another one to
the `if` before these. -/
theorem branched_nested : ∃ statements,
    ofText "if (a) while (b) for (var i; ; i = 1) if (c) d; else e; else f;" = .ok statements ∧
    statements.length = 1 ∧ ∀ s ∈ statements, ∀ v : Value, v.Within s → v.Branched := by
  have hmade : (ofText "if (a) while (b) for (var i; ; i = 1) if (c) d; else e; else f;").toOption.map
      List.length = some 1 := by decide +kernel
  cases hprogram : ofText "if (a) while (b) for (var i; ; i = 1) if (c) d; else e; else f;" with
  | error e =>
    rw [hprogram] at hmade
    exact nomatch hmade
  | ok statements =>
    rw [hprogram] at hmade
    exact ⟨statements, rfl, Option.some.inj hmade, branched_throughout hprogram⟩

end Program

end LoxForms
