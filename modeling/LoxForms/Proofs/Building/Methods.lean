import LoxForms.Proofs.Building.Extracting
import LoxForms.Proofs.Parsing.Lining
import LoxForms.Proofs.Parsing.Reserved
/-!
# Methods

A method is a function that stands in a class. It begins with its name and ends with its
block, and so it is read alike wherever methods are read: with the same value, and through
the same states. `MethodReading` is what is read so, and `exists_methodReading` makes one
of it.

What is read of a class before its methods is a `ClassHead`. Put before any methods it is
read with them as a program (`ClassHead.exists_lands`). After each method it is settled
which words can come next: no reserved word but a connective (`ClassHead.refuses`).
-/

namespace LoxForms

open Automaton Building

variable {k j : TokenKind} {slots : List Slot} {w : List Lexeme} {ts : List (Tree Lexeme)}
variable {v : Value}

/-! ## What a method is read of -/

namespace Grammar

/-- What can stand in the place of the parameters. -/
def parameterSlots : List Slot := [.phrase .parameters, .absent]

/-- The symbols of a function, with parameters or without them. -/
def functionSlots (params : Slot) : List Slot :=
  [.keep .identifier, .drop .leftParen, params, .drop .rightParen, .phrase .block]

/-- What can be read of a class before one of its methods. -/
def earlierSlots : List (List Slot) := [[], [.phrase .methods]]

variable {p : Production}

/-- How functions and blocks are made. -/
theorem functions_checked : ∀ p ∈ productions.toList,
    (p.phrase = .function →
      ∃ params ∈ parameterSlots, p = named .function .function (functionSlots params)) ∧
    (p.phrase = .block → p.slots = p.slots.dropLast ++ [Slot.drop .rightBrace]) := by
  decide +kernel

theorem function_of_mem (hp : p ∈ productions) (hn : p.phrase = .function) :
    ∃ params ∈ parameterSlots, p = named .function .function (functionSlots params) :=
  (functions_checked p (Array.mem_toList_iff.mpr hp)).1 hn

theorem block_of_mem (hp : p ∈ productions) (hn : p.phrase = .block) :
    ∃ slots, p.slots = slots ++ [Slot.drop .rightBrace] :=
  ⟨_, (functions_checked p (Array.mem_toList_iff.mpr hp)).2 hn⟩

theorem methods_mem : ⟨.methods, [.phrase .function], .splice⟩ ∈ productions ∧
    ⟨.methods, [.phrase .methods, .phrase .function], .splice⟩ ∈ productions := by
  constructor <;> exact mem_of_declarationRules (by simp [declarationRules, listOf])

end Grammar

namespace Reads

/-- What a row reads up to a token, it reads whatever comes next. -/
theorem before_any (h : Reads k (slots ++ [Slot.drop j]) w ts) (i : TokenKind) :
    Reads i (slots ++ [Slot.drop j]) w ts := by
  obtain ⟨u, _, us, _, rfl, rfl, hu, hlast⟩ := h.of_append
  cases hlast with
  | drop hl hnil =>
    cases hnil
    exact append hu (drop hl done)

theorem block_before (h : Reads k [.phrase .block] w ts) (i : TokenKind) :
    Reads i [.phrase .block] w ts := by
  obtain ⟨p, hp, hn, us, hin, rfl⟩ := h.of_phrase
  obtain ⟨inner, hinner⟩ := Grammar.block_of_mem hp hn
  rw [hinner] at hin
  have hrow : Reads i p.slots w us := by
    rw [hinner]
    exact hin.before_any i
  exact hn ▸ production hp hrow

/-- **A function ends with its block**, whatever comes next. -/
theorem function_before (h : Reads k [.phrase .function] w ts) (i : TokenKind) :
    Reads i [.phrase .function] w ts := by
  obtain ⟨p, hp, hn, us, hin, rfl⟩ := h.of_phrase
  obtain ⟨params, -, rfl⟩ := Grammar.function_of_mem hp hn
  have hrow : Reads k ([Slot.keep .identifier, .drop .leftParen, params, .drop .rightParen] ++
      [.phrase .block]) w us := hin
  obtain ⟨u, v, us, vs, rfl, rfl, hu, hv⟩ := hrow.of_append
  have hblock := hv.block_before i
  have hnext : upcoming k v = upcoming i v := by
    rw [List.mem_singleton.mp hv.upcoming_mem, List.mem_singleton.mp hblock.upcoming_mem]
  rw [hnext] at hu
  have hrow : Reads i (Grammar.functionSlots params) (u ++ v) (us ++ vs) := append hu hblock
  exact production hp hrow

end Reads

/-- What is read as a method, wherever methods are read. -/
structure MethodReading where
  value : Value
  word : List Lexeme
  trees : List (Tree Lexeme)
  states : List Nat
  lands : ∀ k q, (goto? q .function).isSome → Lands k q [.phrase .function] word trees states
  build : Tree.buildAll Program.readLexeme trees = .ok [value]

/-- What is read as a method is read as the same one everywhere. -/
theorem exists_methodReading (h : Reads k [.phrase .function] w ts)
    (hbuild : Tree.buildAll Program.readLexeme ts = .ok [v]) :
    ∃ M : MethodReading, M.word = w ∧ M.value = v := by
  obtain ⟨q, hq⟩ := exists_goto .function
  obtain ⟨qs, hlands⟩ := (h.function_before .elseWord).lands_phrase hq
  exact ⟨⟨v, w, ts, qs, fun k q hq => hlands k q (eq_or_ne k .elseWord) hq, hbuild⟩, rfl, rfl⟩

/-- The row of a function, and what it makes. -/
theorem Lands.of_function {q : Nat} {qs : List Nat} (h : Lands k q [.phrase .function] w ts qs) :
    ∃ params ∈ Grammar.parameterSlots, ∃ us, ts = [.node (.rule .function) us] ∧
      Lands k q (Grammar.functionSlots params) w us qs := by
  obtain ⟨p, hp, hn, -, us, hin, rfl⟩ := h.of_phrase
  obtain ⟨params, hparams, rfl⟩ := Grammar.function_of_mem hp hn
  exact ⟨params, hparams, us, rfl, hin⟩

/-- A block ends in a state where it is complete. -/
theorem Lands.exists_last_block {q : Nat} {qs : List Nat} (h : Lands k q [.phrase .block] w ts qs) :
    ∃ ps r p, qs = ps ++ [r] ∧ complete? r = some p ∧ p.phrase = .block := by
  obtain ⟨p, hp, hn, ⟨r, hr⟩, us, hin, -⟩ := h.of_phrase
  obtain ⟨last, hwalk, hcomplete⟩ := walk_of_goto (hn ▸ hr) hp
  obtain ⟨inner, hinner⟩ := Grammar.block_of_mem hp hn
  rw [hinner] at hin
  obtain ⟨ps, r, rfl, hlast⟩ := hin.exists_last
  rw [Production.atoms, hinner, hlast] at hwalk
  obtain rfl := Option.some.inj hwalk
  exact ⟨ps, r, p, rfl, hcomplete, hn⟩

/-- A function begins with its name. -/
theorem Lands.exists_function_name {q : Nat} {qs : List Nat}
    (h : Lands k q [.phrase .function] w ts qs)
    (hbuild : Tree.buildAll Program.readLexeme ts = .ok [v]) :
    ∃ l rest params body, w = l :: rest ∧ l.kind = .identifier ∧
      v = .functionDeclaration (.token .identifier l.text .nil l.first.line) params body := by
  obtain ⟨params, -, us, rfl, hrow⟩ := h.of_function
  obtain ⟨u, hu, _, hnil, hv⟩ := Tree.buildAll_cons_eq_ok.mp hbuild
  obtain ⟨rfl, -⟩ := List.cons.inj hv
  obtain ⟨vs, hvs, hrule⟩ := bind_eq_ok.mp hu
  cases hrow with
  | @keep _ _ _ _ l _ rest _ _ hl _ _ =>
    obtain ⟨name, hname, vs, -, rfl⟩ := Tree.buildAll_cons_eq_ok.mp hvs
    match vs, ofNode_rule.mp hrule with
    | [params, body], hrule =>
      obtain ⟨-, statements, -, items, -, rfl⟩ := ofRule_function.mp hrule
      have hread := Program.readLexeme_of_kind hl rfl (by decide) (by decide)
      obtain rfl := Except.ok.inj (hread.symm.trans hname)
      exact ⟨l, rest, .list items, statements, rfl, hl, rfl⟩

namespace MethodReading

/-- **The last lexeme of a method closes its block.** -/
theorem exists_last (M : MethodReading) : ∃ ps r p, M.states = ps ++ [r] ∧
    complete? r = some p ∧ p.phrase = .block := by
  obtain ⟨q, hq⟩ := exists_goto .function
  obtain ⟨params, -, us, -, hrow⟩ := (M.lands .endOfText q hq).of_function
  have hrow : Lands .endOfText q ([.keep .identifier, .drop .leftParen, params,
      .drop .rightParen] ++ [Slot.phrase .block]) M.word us M.states := hrow
  obtain ⟨_, _, _, _, ps, _, _, -, -, hstates, -, -, hblock⟩ := hrow.of_append
  obtain ⟨ps', r, p, rfl, hcomplete⟩ := hblock.exists_last_block
  exact ⟨ps ++ ps', r, p, by rw [hstates, List.append_assoc], hcomplete⟩

theorem exists_last_of_all {Ms : List MethodReading} (hne : Ms ≠ []) : ∃ ps r p,
    Ms.flatMap states = ps ++ [r] ∧ complete? r = some p ∧ p.phrase = .block := by
  obtain ⟨Ms, M, rfl⟩ := (List.eq_nil_or_concat' Ms).resolve_left hne
  obtain ⟨ps, r, p, hstates, hcomplete⟩ := M.exists_last
  refine ⟨Ms.flatMap states ++ ps, r, p, ?_, hcomplete⟩
  rw [List.flatMap_append, List.flatMap_singleton, hstates, List.append_assoc]

/-- **The first lexeme of a method is its name.** -/
theorem exists_name (M : MethodReading) : ∃ l rest params body, M.word = l :: rest ∧
    l.kind = .identifier ∧ M.value =
      .functionDeclaration (.token .identifier l.text .nil l.first.line) params body := by
  obtain ⟨q, hq⟩ := exists_goto .function
  exact (M.lands .endOfText q hq).exists_function_name M.build

theorem upcoming_word (M : MethodReading) (w : List Lexeme) (k : TokenKind) :
    upcoming k (M.word ++ w) = .identifier := by
  obtain ⟨l, rest, _, _, hword, hl, -⟩ := M.exists_name
  rw [hword]
  exact hl

theorem length_states (M : MethodReading) : M.states.length = M.word.length := by
  obtain ⟨q, hq⟩ := exists_goto .function
  exact (M.lands .endOfText q hq).length_eq

variable {Ms : List MethodReading}

theorem upcoming_words (hne : Ms ≠ []) (w : List Lexeme) (k : TokenKind) :
    upcoming k (Ms.flatMap word ++ w) = .identifier := by
  obtain ⟨M, Ms, rfl⟩ := List.exists_cons_of_ne_nil hne
  rw [List.flatMap_cons, List.append_assoc]
  exact M.upcoming_word _ k

/-- **Methods one after the other are the methods of a class.** The list of them grows at
its end. -/
theorem exists_lands_methods (hne : Ms ≠ []) : ∃ ts,
    (∀ k q, (goto? q .methods).isSome →
      Lands k q [.phrase .methods] (Ms.flatMap word) ts (Ms.flatMap states)) ∧
    Tree.buildAll Program.readLexeme ts = .ok (Ms.map value) := by
  induction Ms using List.reverseRecOn with
  | nil => exact absurd rfl hne
  | append_singleton Ms M ih =>
    rw [List.flatMap_append, List.flatMap_append, List.flatMap_singleton, List.flatMap_singleton,
      List.map_append, List.map_singleton]
    by_cases hMs : Ms = []
    · subst hMs
      refine ⟨M.trees, fun k q hq => ?_, M.build⟩
      refine .production Grammar.methods_mem.1 hq fun hwalk => ?_
      have hfunction : (walk? q [.phrase .function]).isSome := hwalk
      rw [walk?_singleton] at hfunction
      exact M.lands k q hfunction
    · obtain ⟨ts, hlands, hbuild⟩ := ih hMs
      refine ⟨ts ++ M.trees, fun k q hq => ?_,
        Tree.buildAll_append_eq_ok.mpr ⟨_, _, hbuild, M.build, rfl⟩⟩
      refine .production Grammar.methods_mem.2 hq fun hwalk => ?_
      obtain ⟨r, hr, hwalk⟩ := walk?_cons_isSome.mp hwalk
      have hfunction : (walk? r [.phrase .function]).isSome := hwalk
      rw [walk?_singleton] at hfunction
      exact (hlands _ q hq).append ((walk?_singleton q _).trans hr) (M.lands k r hfunction)

/-- The methods before another one, if there are any. -/
theorem exists_lands_before (Ms : List MethodReading) :
    ∃ body ∈ Grammar.earlierSlots, ∀ k q, (goto? q .methods).isSome → ∃ ts,
      Lands k q body (Ms.flatMap word) ts (Ms.flatMap states) := by
  by_cases hne : Ms = []
  · subst hne
    exact ⟨[], by decide, fun _ _ _ => ⟨[], .done⟩⟩
  · obtain ⟨ts, hlands, -⟩ := exists_lands_methods hne
    exact ⟨[.phrase .methods], by decide, fun k q hq => ⟨ts, hlands k q hq⟩⟩

end MethodReading

/-! ## What a class is read of -/

namespace Grammar

/-- What can stand in the place of the superclass. -/
def superclassSlots : List Slot := [.absent, .phrase .superclass]

/-- The symbols of a class before its methods, with a superclass or without one. -/
def headSlots (base : Slot) : List Slot :=
  [.drop .classWord, .keep .identifier, base, .drop .leftBrace]

theorem classDecl_mem {base : Slot} (h : base ∈ superclassSlots) :
    named .classDecl .classDecl (headSlots base ++ [Slot.phrase .methods, .drop .rightBrace]) ∈
      productions := by
  refine mem_of_declarationRules ?_
  simp only [superclassSlots, List.mem_cons, List.not_mem_nil, or_false] at h
  rcases h with rfl | rfl <;> simp [declarationRules, headSlots]

theorem superclass_mem :
    named .superclass .superclass [.drop .less, .keep .identifier] ∈ productions :=
  mem_of_declarationRules (by simp [declarationRules])

end Grammar

/-- Where a text begins the head of a class can be read, with methods and a brace behind it. -/
theorem exists_walk_head {slot : Slot} (hslot : slot ∈ Grammar.superclassSlots) :
    ∃ a b r, walk? 0 ((Grammar.headSlots slot).filterMap Slot.atom?) = some a ∧
      goto? a .methods = some b ∧ step? b (.token .rightBrace) = some r := by
  obtain ⟨_, hgoto⟩ := Option.isSome_iff_exists.mp (goto_zero .classDecl (by simp))
  obtain ⟨r, hwalk, -⟩ := walk_of_goto hgoto (Grammar.classDecl_mem hslot)
  have hwalk : walk? 0 ((Grammar.headSlots slot ++
      [Slot.phrase .methods, .drop .rightBrace]).filterMap Slot.atom?) = some r := hwalk
  rw [List.filterMap_append, walk?_append] at hwalk
  obtain ⟨a, ha, hwalk⟩ := Option.bind_eq_some_iff.mp hwalk
  obtain ⟨b, hb, hwalk⟩ := walk?_cons hwalk
  obtain ⟨_, hr, -⟩ := walk?_cons hwalk
  exact ⟨a, b, _, ha, hb, hr⟩

/-- Where methods can be read, so can a function, with methods before it or without. -/
theorem exists_walk_earlier {a : Nat} {body : List Slot} (ha : (goto? a .methods).isSome)
    (hbody : body ∈ Grammar.earlierSlots) :
    ∃ r, walk? a (body.filterMap Slot.atom?) = some r ∧ (goto? r .function).isSome := by
  obtain ⟨_, hgoto⟩ := Option.isSome_iff_exists.mp ha
  simp only [Grammar.earlierSlots, List.mem_cons, List.not_mem_nil, or_false] at hbody
  rcases hbody with rfl | rfl
  · obtain ⟨_, hwalk, -⟩ := walk_of_goto hgoto Grammar.methods_mem.1
    obtain ⟨b, hb, -⟩ := walk?_cons hwalk
    exact ⟨a, rfl, Option.isSome_iff_exists.mpr ⟨b, hb⟩⟩
  · obtain ⟨_, hwalk, -⟩ := walk_of_goto hgoto Grammar.methods_mem.2
    obtain ⟨r, hr, hwalk⟩ := walk?_cons hwalk
    obtain ⟨b, hb, -⟩ := walk?_cons hwalk
    exact ⟨r, (walk?_singleton a _).trans hr, Option.isSome_iff_exists.mpr ⟨b, hb⟩⟩

/-- What is read of a class before its methods. -/
structure ClassHead where
  /-- The place of the superclass. -/
  slot : Slot
  slot_mem : slot ∈ Grammar.superclassSlots
  name : Value
  base : Value
  word : List Lexeme
  trees : List (Tree Lexeme)
  states : List Nat
  lands : Lands .identifier 0 (Grammar.headSlots slot) word trees states
  build : Tree.buildAll Program.readLexeme trees = .ok [name, base]
  isToken : name.isToken
  base_eq : base = .nil ∨ ∃ n, base = .variableName n

/-- The words for a superclass, if there is one. -/
def baseWords (base : Option String) : List (TokenKind × String) :=
  base.toList.flatMap fun b => [(.less, "<"), (.identifier, b)]

/-- The words that a class begins with. -/
def classWords (name : String) (base : Option String) : List (TokenKind × String) :=
  (.classWord, "class") :: (.identifier, name) ::
    (baseWords base ++ [(TokenKind.leftBrace, "\x7b")])

theorem exists_readLexeme {l : Lexeme} (hl : l.kind = .identifier) :
    ∃ v, Program.readLexeme l = .ok v ∧ v.isToken :=
  ⟨_, Program.readLexeme_of_kind hl rfl (by decide) (by decide), rfl⟩

theorem exists_base {base : Option String} (h : w.map Lexeme.bare = baseWords base) :
    ∃ slot ∈ Grammar.superclassSlots, ∃ ts v, Reads .leftBrace [slot] w ts ∧
      Tree.buildAll Program.readLexeme ts = .ok [v] ∧ (v = .nil ∨ ∃ n, v = .variableName n) := by
  cases base with
  | none =>
    obtain rfl := List.map_eq_nil_iff.mp h
    exact ⟨.absent, by decide, [.absent], .nil, .absent (by decide) .done, rfl, .inl rfl⟩
  | some base =>
    obtain ⟨less, _, rfl, hless, h⟩ := List.map_eq_cons_iff.mp h
    obtain ⟨l, _, rfl, hl, h⟩ := List.map_eq_cons_iff.mp h
    obtain rfl := List.map_eq_nil_iff.mp h
    obtain ⟨v, hv, htoken⟩ := exists_readLexeme (Prod.mk.inj hl).1
    have hrow : Reads .leftBrace [.drop .less, .keep .identifier] [less, l] [.leaf l] :=
      .drop (Prod.mk.inj hless).1 (.keep (Prod.mk.inj hl).1 .done)
    have hleaf : Tree.buildAll Program.readLexeme [.leaf l] = .ok [v] :=
      Tree.buildAll_cons_eq_ok.mpr ⟨v, hv, [], rfl, rfl⟩
    refine ⟨.phrase .superclass, by decide, _, .variableName v,
      .production Grammar.superclass_mem hrow, (Shape.buildAll_apply _).mpr ⟨[v], hleaf, ?_⟩,
      .inr ⟨v, rfl⟩⟩
    exact Shape.values_node.mpr
      ⟨_, ofNode_rule.mpr (ofRule_superclass.mpr ⟨htoken, rfl⟩), rfl⟩

/-- What has these words is the beginning of a class. -/
theorem exists_classHead {name : String} {base : Option String}
    (h : w.map Lexeme.bare = classWords name base) : ∃ H : ClassHead, H.word = w := by
  obtain ⟨c, _, rfl, hc, h⟩ := List.map_eq_cons_iff.mp h
  obtain ⟨l, _, rfl, hl, h⟩ := List.map_eq_cons_iff.mp h
  obtain ⟨u, _, rfl, hu, h⟩ := List.map_eq_append_iff.mp h
  obtain ⟨b, rfl, hb⟩ := List.map_eq_singleton_iff.mp h
  obtain ⟨v, hv, htoken⟩ := exists_readLexeme (Prod.mk.inj hl).1
  obtain ⟨slot, hslot, ts, base, hbase, hts, hvariable⟩ := exists_base hu
  have hbrace : b.kind = .leftBrace := (Prod.mk.inj hb).1
  have hrest : Reads .identifier ([slot] ++ [Slot.drop .leftBrace]) (u ++ [b]) (ts ++ []) :=
    .append (by rwa [upcoming_cons, hbrace]) (.drop hbrace .done)
  have hreads : Reads .identifier (Grammar.headSlots slot) (c :: l :: (u ++ [b]))
      (.leaf l :: (ts ++ [])) := .drop (Prod.mk.inj hc).1 (.keep (Prod.mk.inj hl).1 hrest)
  have hwalk : (walk? 0 ((Grammar.headSlots slot).filterMap Slot.atom?)).isSome := by
    obtain ⟨a, _, _, ha, -⟩ := exists_walk_head hslot
    exact Option.isSome_iff_exists.mpr ⟨a, ha⟩
  obtain ⟨qs, hlands⟩ := hreads.lands hwalk
  have hbuild : Tree.buildAll Program.readLexeme (.leaf l :: (ts ++ [])) = .ok [v, base] :=
    Tree.buildAll_cons_eq_ok.mpr ⟨v, hv, [base], by rwa [List.append_nil], rfl⟩
  exact ⟨⟨slot, hslot, v, base, _, _, qs, hlands _ 0 (.inl rfl) hwalk rfl, hbuild, htoken,
    hvariable⟩, rfl⟩

namespace ClassHead

variable {Ms : List MethodReading}

/-- What a class with these methods stands for. -/
def value (H : ClassHead) (Ms : List MethodReading) : Value :=
  .classDeclaration H.name H.base (.list (Ms.map MethodReading.value))

theorem ofRule_value (H : ClassHead) (Ms : List MethodReading) :
    ofRule .classDecl (H.name :: H.base :: Ms.map MethodReading.value) = .ok (H.value Ms) := by
  refine ofRule_classDecl.mpr ⟨H.isToken, H.base_eq, fun v hv => ?_, rfl⟩
  obtain ⟨M, -, rfl⟩ := List.mem_map.mp hv
  obtain ⟨_, _, params, body, -, -, hvalue⟩ := M.exists_name
  exact ⟨_, params, body, hvalue⟩

/-- Behind the head of a class, methods can be read. -/
theorem exists_last (H : ClassHead) : ∃ ps a, H.states = ps ++ [a] ∧
    walk? 0 ((Grammar.headSlots H.slot).filterMap Slot.atom?) = some a ∧
      (goto? a .methods).isSome := by
  have hrow : Lands .identifier 0 ([Slot.drop .classWord, .keep .identifier, H.slot] ++
      [.drop .leftBrace]) H.word H.trees H.states := H.lands
  obtain ⟨ps, a, hstates, hwalk⟩ := hrow.exists_last
  obtain ⟨a', b, _, ha, hb, -⟩ := exists_walk_head H.slot_mem
  obtain rfl : a = a' := Option.some.inj (hwalk.symm.trans ha)
  exact ⟨ps, a, hstates, hwalk, Option.isSome_iff_exists.mpr ⟨b, hb⟩⟩

/-- The row of a class, with its methods. -/
theorem exists_row (H : ClassHead) (hne : Ms ≠ []) {close : Lexeme}
    (hclose : close.kind = .rightBrace) :
    ∃ ts r, Lands .endOfText 0
        (Grammar.headSlots H.slot ++ [Slot.phrase .methods, .drop .rightBrace])
        (H.word ++ (Ms.flatMap MethodReading.word ++ [close])) ts
        (H.states ++ (Ms.flatMap MethodReading.states ++ [r])) ∧
      Tree.buildAll Program.readLexeme ts =
        .ok (H.name :: H.base :: Ms.map MethodReading.value) := by
  obtain ⟨ts, hmethods, hbuild⟩ := MethodReading.exists_lands_methods hne
  obtain ⟨a, b, r, ha, hb, hr⟩ := exists_walk_head H.slot_mem
  have hbody : Lands .endOfText a [.phrase .methods, .drop .rightBrace] _ _ _ :=
    (hmethods _ a (Option.isSome_iff_exists.mpr ⟨b, hb⟩)).append ((walk?_singleton a _).trans hb)
      (.drop hclose hr .done)
  refine ⟨H.trees ++ (ts ++ []), _, Lands.append ?_ ha hbody, ?_⟩
  · rw [MethodReading.upcoming_words hne]
    exact H.lands
  · rw [List.append_nil]
    exact Tree.buildAll_append_eq_ok.mpr ⟨_, _, H.build, hbuild, rfl⟩

/-- **A class by itself is a program.** -/
theorem exists_lands (H : ClassHead) (hne : Ms ≠ []) {close : Lexeme}
    (hclose : close.kind = .rightBrace) :
    ∃ ts r, Lands .endOfText 0 [.phrase .program]
        (H.word ++ (Ms.flatMap MethodReading.word ++ [close])) ts
        (H.states ++ (Ms.flatMap MethodReading.states ++ [r])) ∧
      Tree.buildAll Program.readLexeme ts = .ok [.list [H.value Ms]] := by
  obtain ⟨ts, r, hrow, hbuild⟩ := H.exists_row hne hclose
  have hlands := Lands.production (Grammar.classDecl_mem H.slot_mem)
    (goto_zero .classDecl (by simp)) fun _ => hrow
  have hlands := Lands.production (Grammar.declaration_mem List.mem_cons_self)
    (goto_zero .declaration (by simp)) fun _ => hlands
  have hlands := Lands.production Grammar.declarations_mem.1 (goto_zero .declarations (by simp))
    fun _ => hlands
  refine ⟨_, r, .production Grammar.program_mem.2 (goto_zero .program (by simp))
    fun _ => hlands, ?_⟩
  have hvalue : (Shape.node (.rule .classDecl)).values
      (H.name :: H.base :: Ms.map MethodReading.value) = .ok [H.value Ms] :=
    Shape.values_node.mpr ⟨_, ofNode_rule.mpr (H.ofRule_value Ms), rfl⟩
  have hstart : (Shape.node (.rule .start)).values [H.value Ms] = .ok [.list [H.value Ms]] :=
    Shape.values_node.mpr ⟨_, ofNode_rule.mpr
      (ofRule_start.mpr ⟨List.forall_mem_singleton.mpr rfl, rfl⟩), rfl⟩
  have hbuild := (Shape.buildAll_apply _).mpr ⟨_, hbuild, hvalue⟩
  have hbuild := (Shape.buildAll_apply (.nodeUnlessSingle (.other "declaration"))).mpr
    ⟨_, hbuild, rfl⟩
  have hbuild := (Shape.buildAll_apply .splice).mpr ⟨_, hbuild, rfl⟩
  exact (Shape.buildAll_apply _).mpr ⟨_, hbuild, hstart⟩

/-- The row of a class up to its last method so far. -/
theorem exists_front (H : ClassHead) (Ms : List MethodReading) :
    ∃ body ∈ Grammar.earlierSlots, ∃ r, (goto? r .function).isSome ∧
      ∀ (M : MethodReading) k slots us, Lands k r slots M.word us M.states → ∃ ts,
        Lands k 0 (Grammar.headSlots H.slot ++ (body ++ slots))
          (H.word ++ ((Ms ++ [M]).flatMap MethodReading.word)) ts
          (H.states ++ ((Ms ++ [M]).flatMap MethodReading.states)) := by
  obtain ⟨body, hbody, hmethods⟩ := MethodReading.exists_lands_before Ms
  obtain ⟨-, a, -, ha, hgoto⟩ := H.exists_last
  obtain ⟨r, hr, hfunction⟩ := exists_walk_earlier hgoto hbody
  refine ⟨body, hbody, r, hfunction, fun M k slots us hlands => ?_⟩
  obtain ⟨ts, hmethods⟩ := hmethods (upcoming k M.word) a hgoto
  have hall := hmethods.append hr hlands
  rw [← List.flatMap_singleton MethodReading.word M,
    ← List.flatMap_singleton MethodReading.states M, ← List.flatMap_append,
    ← List.flatMap_append] at hall
  refine ⟨H.trees ++ (ts ++ us), Lands.append ?_ ha hall⟩
  rw [← List.append_nil (List.flatMap _ _), MethodReading.upcoming_words (by simp)]
  exact H.lands

/-- **After a method no reserved word is read**, unless it is a connective. -/
theorem refuses (H : ClassHead) (hne : Ms ≠ []) (hk : k ∈ TokenKind.words)
    (hc : k ∉ TokenKind.connectives) :
    ∃ q, Progress.start.Visits (H.word ++ Ms.flatMap MethodReading.word)
        (H.states ++ Ms.flatMap MethodReading.states) q ∧ q.stack.IsPath ∧
      ∀ l q', l.kind = k → q.feed l ≠ .ok q' := by
  obtain ⟨Ms, M, rfl⟩ := (List.eq_nil_or_concat' Ms).resolve_left hne
  obtain ⟨body, hbody, r, hr, hfront⟩ := H.exists_front Ms
  have hfunction := M.lands k r hr
  by_cases helse : k = .elseWord
  · -- an `else` can come after a block, and then the function is not complete
    have hnone : ∀ slot ∈ Grammar.superclassSlots, ∀ body ∈ Grammar.earlierSlots,
        ∀ params ∈ Grammar.parameterSlots,
          let row := Grammar.headSlots slot ++ (body ++ Grammar.functionSlots params)
          Slot.followed .elseWord row ∧
            ∀ r ∈ walk? 0 (row.filterMap Slot.atom?), action? r .elseWord = none := by
      decide +kernel
    subst helse
    obtain ⟨params, hparams, us, -, hfunction⟩ := hfunction.of_function
    obtain ⟨ts, hlands⟩ := hfront M _ _ us hfunction
    obtain ⟨hfollowed, hnone⟩ := hnone H.slot H.slot_mem body hbody params hparams
    exact hlands.refuses hfollowed hnone
  · have hnone : ∀ slot ∈ Grammar.superclassSlots, ∀ body ∈ Grammar.earlierSlots,
        ∀ k ∈ TokenKind.words, k ∉ TokenKind.connectives → k ≠ .elseWord →
          let row := Grammar.headSlots slot ++ (body ++ [Slot.phrase .function])
          Slot.followed k row ∧ ∀ r ∈ walk? 0 (row.filterMap Slot.atom?), action? r k = none := by
      decide +kernel
    obtain ⟨ts, hlands⟩ := hfront M _ _ _ hfunction
    obtain ⟨hfollowed, hnone⟩ := hnone H.slot H.slot_mem body hbody k hk hc helse
    exact hlands.refuses hfollowed hnone

end ClassHead

end LoxForms
