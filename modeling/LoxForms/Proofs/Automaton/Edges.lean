import LoxForms.Automaton
/-!
# The edges of the automaton

A symbol that is read in a state, be it a token or a whole phrase, leads to
another state. This file says what can be known of a state from the edges that
lead to it and from it. Each fact is one that the table is checked for, row by
row, and a theorem about all states.

* `past_of_step`: the symbols that a state's past tells of have been read.
* `past_of_complete`: where a production is complete, its symbols are the past.
* `walk_of_goto`: where a phrase can be finished, so can each of its
  productions be read to its end.
* `shift_of_complete`: reading and finishing are at odds over an `else` only.
-/

namespace LoxForms

namespace Automaton

/-- Where a symbol leads from a state. -/
def step? (q : Nat) : Atom → Option Nat
  | .token k => (state q).shifts.lookup k
  | .phrase n => goto? q n

@[simp] theorem step?_token (q : Nat) (k : TokenKind) :
    step? q (.token k) = (state q).shifts.lookup k := rfl

@[simp] theorem step?_phrase (q : Nat) (n : Nonterminal) :
    step? q (.phrase n) = goto? q n := rfl

/-- Where symbols lead, one after the other. -/
def walk? (q : Nat) : List Atom → Option Nat
  | [] => some q
  | a :: as => (step? q a).bind (walk? · as)

theorem walk?_cons {q r : Nat} {a : Atom} {as : List Atom} (h : walk? q (a :: as) = some r) :
    ∃ q₁, step? q a = some q₁ ∧ walk? q₁ as = some r :=
  Option.bind_eq_some_iff.mp h

theorem walk?_append (q : Nat) (as bs : List Atom) :
    walk? q (as ++ bs) = (walk? q as).bind (walk? · bs) := by
  induction as generalizing q with
  | nil => rfl
  | cons a as ih =>
    rw [List.cons_append, walk?, walk?, Option.bind_assoc]
    exact Option.bind_congr fun r _ => ih r

theorem walk?_singleton (q : Nat) (a : Atom) : walk? q [a] = step? q a := by
  rw [walk?]
  cases step? q a <;> rfl

/-- For each state, the place of a production that is being read there and the
number of its symbols that have been read. Of several productions it is one of
which the most has been read. -/
def farthest : Array (Nat × Nat) :=
  #[(0, 0), (0, 1), (2, 1), (4, 1), (5, 1), (6, 1), (7, 1), (8, 1), (15, 1), (22, 1), (24, 1),
    (25, 1), (26, 1), (27, 1), (28, 1), (29, 1), (30, 1), (31, 1), (32, 1), (39, 1), (41, 1),
    (42, 1), (44, 1), (45, 1), (47, 1), (48, 1), (50, 1), (54, 1), (58, 1), (64, 1), (74, 1),
    (80, 1), (86, 1), (87, 1), (88, 1), (89, 1), (97, 1), (98, 1), (99, 1), (100, 1), (101, 1),
    (102, 1), (103, 1), (104, 1), (105, 1), (0, 0), (3, 2), (8, 2), (15, 2), (16, 1), (22, 2),
    (31, 2), (32, 2), (39, 2), (41, 2), (42, 2), (43, 2), (44, 2), (45, 2), (46, 2), (48, 2),
    (50, 2), (52, 1), (54, 2), (56, 1), (58, 2), (60, 1), (61, 1), (64, 2), (66, 1), (67, 1),
    (68, 1), (69, 1), (74, 2), (76, 1), (77, 1), (80, 2), (82, 1), (83, 1), (86, 2), (87, 2),
    (90, 2), (92, 2), (104, 2), (105, 2), (8, 3), (10, 3), (14, 1), (16, 2), (22, 3), (23, 3),
    (32, 3), (36, 1), (37, 1), (38, 1), (39, 3), (41, 3), (42, 3), (44, 3), (45, 3), (48, 3),
    (53, 2), (52, 2), (57, 2), (56, 2), (62, 2), (63, 2), (60, 2), (61, 2), (70, 2), (71, 2),
    (72, 2), (73, 2), (66, 2), (67, 2), (68, 2), (69, 2), (78, 2), (79, 2), (76, 2), (77, 2),
    (84, 2), (85, 2), (82, 2), (83, 2), (90, 3), (91, 3), (93, 1), (92, 3), (104, 3), (105, 3),
    (8, 4), (10, 4), (11, 4), (12, 1), (14, 2), (16, 3), (17, 3), (18, 1), (22, 4), (32, 4),
    (34, 4), (39, 4), (44, 4), (53, 3), (57, 3), (62, 3), (63, 3), (70, 3), (71, 3), (72, 3),
    (73, 3), (78, 3), (79, 3), (84, 3), (85, 3), (90, 4), (93, 2), (95, 1), (8, 5), (9, 5),
    (10, 5), (13, 2), (16, 4), (17, 4), (18, 2), (20, 1), (22, 5), (32, 5), (34, 5), (35, 5),
    (39, 5), (44, 5), (96, 2), (95, 2), (8, 6), (16, 5), (21, 2), (20, 2), (32, 6), (33, 6),
    (34, 6), (35, 6), (39, 6), (96, 3), (21, 3), (32, 7), (33, 7), (34, 7), (39, 7), (32, 8)]

/-- The symbols that have been read for certain when the automaton is in a
state, the last one first. -/
def past (q : Nat) : List Atom :=
  if q = accepting then [.phrase .program]
  else
    match farthest[q]? with
    | some (i, n) => ((Grammar.productions[i]?.elim [] Production.atoms).take n).reverse
    | none => []

/-! ## What is checked of the table -/

def productionsOf (n : Nonterminal) : List Production :=
  Grammar.productions.toList.filter (·.phrase == n)

/-- Where the rows of the table and the productions are looked up. -/
structure Source where
  row : Nat → State
  production : Nat → Option Production
  past : Nat → List Atom

namespace Source

variable (source : Source)

def complete? (q : Nat) : Option Production := (source.row q).complete.bind source.production

/-- The kinds that are read in a state and those before which a production is finished:
the kinds that are wanted, if not in their order. -/
def wanted (q : Nat) : List TokenKind :=
  if q = accepting then [.endOfText]
  else (source.row q).shifts.map Prod.fst ++ (source.complete? q).elim [] (·.phrase.follow)

def walk? (q : Nat) : List Atom → Option Nat
  | [] => some q
  | .token k :: as => ((source.row q).shifts.lookup k).bind (walk? · as)
  | .phrase n :: as => ((source.row q).gotos.lookup n).bind (walk? · as)

/-- Whether a state's past goes on from that of another one by a symbol. -/
def continues (q : Nat) (a : Atom) (r : Nat) : Bool :=
  match source.past r with
  | [] => false
  | b :: rest => b == a && rest.isPrefixOf (source.past q)

/-- Whether a production can be read from a state on and is complete then. -/
def completes (q : Nat) (p : Production) : Bool :=
  match source.walk? q p.atoms with
  | some r => source.complete? r == some p
  | none => false

/-- Whether a token is rightly read in a state where a production is complete:
either the production is not finished before it, or it is an `else`, for which
the last part of the production is missing. -/
def yields (p : Production) (k : TokenKind) : Bool :=
  !p.phrase.follow.contains k || (k == .elseWord && p.slots.getLast? == some .absent)

/-- Whether the symbols of a complete production have just been read, and a
token is read instead of finishing it only where an `else` is. -/
def settles (q : Nat) (p : Production) : Bool :=
  p.atoms.reverse.isPrefixOf (source.past q) && (p.atoms != [] || q == 0) &&
    (source.row q).shifts.all (fun e => yields p e.1) &&
    (p.slots.getLast? != some .absent || ((source.row q).shifts.lookup .elseWord).isSome)

/-- All that is checked of a row. -/
def checks (q : Nat) : Bool :=
  (source.row q).shifts.all (fun e => source.continues q (.token e.1) e.2) &&
    (source.row q).gotos.all (fun e => source.continues q (.phrase e.1) e.2 &&
      (e.1 != .program || q == 0) && (productionsOf e.1).all (source.completes q)) &&
    (source.complete? q).all (source.settles q)

end Source

/-- The table and the grammar themselves. -/
def table : Source := ⟨state, (Grammar.productions[·]?), past⟩

/-! Looking things up takes the kernel many steps in a long list. In blocks of
fourteen it takes a few, and finds the same. -/

def blocks {α : Type} (l : List α) : List (List α) :=
  (List.range (l.length / 14 + 1)).map fun i => (l.drop (14 * i)).take 14

def find? {α : Type} (bs : List (List α)) (i : Nat) : Option α := bs[i / 14]?.bind (·[i % 14]?)

theorem find?_blocks {α : Type} (l : List α) (i : Nat) : find? (blocks l) i = l[i]? := by
  have hmod : i % 14 < 14 := Nat.mod_lt i (by decide)
  have hsplit : 14 * (i / 14) + i % 14 = i := Nat.div_add_mod i 14
  unfold find? blocks
  by_cases hi : i < l.length
  · have hblock : i / 14 < l.length / 14 + 1 :=
      Nat.lt_succ_of_le (Nat.div_le_div_right (Nat.le_of_lt hi))
    rw [List.getElem?_map, List.getElem?_range hblock, Option.map_some, Option.bind_some,
      List.getElem?_take_of_lt hmod, List.getElem?_drop, hsplit]
  · rw [List.getElem?_eq_none (Nat.not_lt.mp hi), Option.bind_eq_none_iff]
    intro block hb
    obtain ⟨j, hj, rfl⟩ := Option.map_eq_some_iff.mp (List.getElem?_map ▸ hb)
    obtain ⟨-, rfl⟩ := List.getElem?_eq_some_iff.mp hj
    rw [List.getElem_range, List.getElem?_take_of_lt hmod, List.getElem?_drop, hsplit,
      List.getElem?_eq_none (Nat.not_lt.mp hi)]

theorem find?_toList {α : Type} (a : Array α) : find? (blocks a.toList) = (a[·]?) := by
  funext i
  rw [find?_blocks, Array.getElem?_toList]

/-- The same as `table`, in blocks. -/
def quickTable : Source :=
  ⟨fun q => (find? (blocks states.toList) q).getD ⟨[], [], none⟩,
    find? (blocks Grammar.productions.toList),
    fun q =>
      if q = accepting then [.phrase .program]
      else
        match find? (blocks farthest.toList) q with
        | some (i, n) =>
          (((find? (blocks Grammar.productions.toList) i).elim [] Production.atoms).take n).reverse
        | none => []⟩

theorem quickTable_eq : quickTable = table := by
  simp only [quickTable, table, find?_toList]
  rfl

/-- **The table is as it should be**, row by row. -/
theorem checks_of_lt : ∀ q < states.size, table.checks q := by
  rw [← quickTable_eq]
  decide +kernel

/-- A state that is in no row has nothing to it. -/
theorem state_of_size_le {q : Nat} (h : states.size ≤ q) : state q = ⟨[], [], none⟩ := by
  unfold state
  rw [Array.getElem?_eq_none h]
  rfl

theorem past_of_size_le {q : Nat} (h : states.size ≤ q) : past q = [] := by
  have hsizes : farthest.size = states.size := by decide +kernel
  have haccepting : accepting < states.size := by decide +kernel
  unfold past
  rw [if_neg (by omega), Array.getElem?_eq_none (by omega)]

/-- A symbol leads somewhere only from a state that is in a row. -/
theorem lt_size_of_step {q r : Nat} {a : Atom} (h : step? q a = some r) : q < states.size := by
  refine Nat.lt_of_not_le fun hq => ?_
  cases a <;> simp [step?, goto?, state_of_size_le hq] at h

theorem lt_size_of_complete {q : Nat} {p : Production} (h : complete? q = some p) :
    q < states.size := by
  refine Nat.lt_of_not_le fun hq => ?_
  simp [complete?, state_of_size_le hq] at h

theorem mem_of_lookup {α β : Type} [DecidableEq α] {l : List (α × β)} {x : α} {y : β}
    (h : l.lookup x = some y) : (x, y) ∈ l := by
  obtain ⟨l₁, l₂, rfl, -⟩ := List.lookup_eq_some_iff.mp h
  simp

theorem mem_of_shift {q r : Nat} {k : TokenKind} (h : step? q (.token k) = some r) :
    (k, r) ∈ (state q).shifts := by
  rw [step?] at h
  exact mem_of_lookup h

theorem mem_of_goto {q r : Nat} {n : Nonterminal} (h : goto? q n = some r) :
    (n, r) ∈ (state q).gotos := by
  rw [goto?] at h
  exact mem_of_lookup h

theorem mem_productions_of_complete {q : Nat} {p : Production} (h : complete? q = some p) :
    p ∈ Grammar.productions := by
  obtain ⟨i, -, hi⟩ := Option.bind_eq_some_iff.mp h
  exact Array.mem_of_getElem? hi

theorem table_past (q : Nat) : table.past q = past q := rfl

theorem table_complete? (q : Nat) : table.complete? q = complete? q := rfl

theorem table_walk? (q : Nat) (as : List Atom) : table.walk? q as = walk? q as := by
  induction as generalizing q with
  | nil => rfl
  | cons a as ih =>
    cases a with
    | token k => exact Option.bind_congr fun r _ => ih r
    | phrase n => exact Option.bind_congr fun r _ => ih r

theorem continues_of_step {q r : Nat} {a : Atom} (h : step? q a = some r) :
    table.continues q a r := by
  have hc := checks_of_lt q (lt_size_of_step h)
  simp only [Source.checks, Bool.and_eq_true, List.all_eq_true] at hc
  cases a with
  | token k => exact hc.1.1 (k, r) (mem_of_shift h)
  | phrase n => exact (hc.1.2 (n, r) (mem_of_goto h)).1.1

theorem settles_of_complete {q : Nat} {p : Production} (h : complete? q = some p) :
    table.settles q p := by
  have hc := checks_of_lt q (lt_size_of_complete h)
  rw [Source.checks, Bool.and_eq_true, table_complete?, h] at hc
  exact hc.2

/-! ## The past -/

/-- **The past is made of what has been read**: the last symbol, and before it
nothing that the state before does not tell of as well. -/
theorem past_of_step {q r : Nat} {a : Atom} (h : step? q a = some r) :
    ∃ rest, past r = a :: rest ∧ rest <+: past q := by
  have hc := continues_of_step h
  unfold Source.continues at hc
  split at hc
  · exact absurd hc (by simp)
  · rename_i b rest hp
    rw [Bool.and_eq_true, beq_iff_eq, List.isPrefixOf_iff_prefix] at hc
    obtain ⟨rfl, hrest⟩ := hc
    exact ⟨rest, hp, hrest⟩

/-- What a state tells of its past beyond the last symbol, the state before tells of. -/
theorem prefix_of_step {q r : Nat} {a b : Atom} {as : List Atom} (h : step? q b = some r)
    (has : a :: as <+: past r) : a = b ∧ as <+: past q := by
  obtain ⟨rest, hpast, hrest⟩ := past_of_step h
  rw [hpast] at has
  obtain ⟨hb, has'⟩ := List.cons_prefix_cons.mp has
  exact ⟨hb, has'.trans hrest⟩

/-- **Where a production is complete, its symbols have just been read.** -/
theorem past_of_complete {q : Nat} {p : Production} (h : complete? q = some p) :
    p.atoms.reverse <+: past q := by
  have hs := settles_of_complete h
  simp only [Source.settles, Bool.and_eq_true] at hs
  exact List.isPrefixOf_iff_prefix.mp hs.1.1.1

/-- What is true of the states where a text begins and where it can end. -/
theorem ends_checked : past 0 = [] ∧ goto? 0 .program = some accepting ∧
    (complete? 0).any (·.phrase == .program) ∧ (state accepting).shifts = [] ∧
    complete? accepting = none := by
  decide +kernel

theorem past_zero : past 0 = [] := ends_checked.1

theorem not_prefix_past_zero {a : Atom} {as : List Atom} : ¬a :: as <+: past 0 := by
  rw [past_zero, List.prefix_nil]
  exact List.cons_ne_nil a as

theorem goto_start : goto? 0 .program = some accepting := ends_checked.2.1

/-- Before anything is read, the empty program is complete, and nothing else is. -/
theorem exists_complete_start : ∃ p, complete? 0 = some p ∧ p.phrase = .program := by
  obtain ⟨p, hp, hphrase⟩ := (Option.any_eq_true _ _).mp ends_checked.2.2.1
  exact ⟨p, hp, eq_of_beq hphrase⟩

theorem shifts_accepting : (state accepting).shifts = [] := ends_checked.2.2.2.1

theorem complete_accepting : complete? accepting = none := ends_checked.2.2.2.2

/-- No symbol leads back to where a text begins. -/
theorem ne_zero_of_step {q r : Nat} {a : Atom} (h : step? q a = some r) : r ≠ 0 := by
  rintro rfl
  obtain ⟨rest, hp, -⟩ := past_of_step h
  rw [past_zero] at hp
  exact absurd hp (by simp)

/-- An empty production is complete only where the text begins. -/
theorem eq_zero_of_complete {q : Nat} {p : Production} (h : complete? q = some p)
    (hp : p.atoms = []) : q = 0 := by
  have hs := settles_of_complete h
  simp only [Source.settles, Bool.and_eq_true] at hs
  simpa [hp] using hs.1.1.2

/-- A program can be finished only where the text begins. -/
theorem eq_zero_of_goto_program {q r : Nat} (h : goto? q .program = some r) : q = 0 := by
  have hstep : step? q (.phrase .program) = some r := h
  have hc := checks_of_lt q (lt_size_of_step hstep)
  simp only [Source.checks, Bool.and_eq_true, List.all_eq_true] at hc
  simpa using (hc.1.2 (.program, r) (mem_of_goto h)).1.2

/-! ## What lies ahead -/

/-- **Where a phrase can be finished, each of its productions can be read.** -/
theorem walk_of_goto {q r : Nat} {p : Production} (h : goto? q p.phrase = some r)
    (hp : p ∈ Grammar.productions) :
    ∃ last, walk? q p.atoms = some last ∧ complete? last = some p := by
  have hstep : step? q (.phrase p.phrase) = some r := h
  have hc := checks_of_lt q (lt_size_of_step hstep)
  simp only [Source.checks, Bool.and_eq_true, List.all_eq_true] at hc
  have hcompletes := (hc.1.2 (p.phrase, r) (mem_of_goto h)).2 p
    (List.mem_filter.mpr ⟨Array.mem_toList_iff.mpr hp, beq_self_eq_true _⟩)
  unfold Source.completes at hcompletes
  split at hcompletes
  · rename_i last hl
    rw [table_walk?] at hl
    exact ⟨last, hl, eq_of_beq hcompletes⟩
  · exact absurd hcompletes (by simp)

/-! ## Reading or finishing -/

/-- **Reading and finishing are at odds over an `else` only**, after a
production whose last part is missing. -/
theorem shift_of_complete {q r : Nat} {p : Production} {k : TokenKind}
    (h : complete? q = some p) (hk : k ∈ p.phrase.follow)
    (hs : (state q).shifts.lookup k = some r) :
    k = .elseWord ∧ p.slots.getLast? = some .absent := by
  have hc := settles_of_complete h
  simp only [Source.settles, Bool.and_eq_true, List.all_eq_true] at hc
  have hy := hc.1.2 (k, r) (mem_of_lookup hs)
  simpa [Source.yields, hk] using hy

/-- Where the last part of a complete production is missing, an `else` can be
read. -/
theorem shift_else_of_complete {q : Nat} {p : Production} (h : complete? q = some p)
    (hp : p.slots.getLast? = some .absent) : ((state q).shifts.lookup .elseWord).isSome := by
  have hc := settles_of_complete h
  simp only [Source.settles, Bool.and_eq_true] at hc
  have helse := hc.2
  rw [hp] at helse
  simpa [table] using helse

end Automaton

end LoxForms
