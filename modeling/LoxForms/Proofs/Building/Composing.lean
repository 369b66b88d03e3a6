import LoxForms.Proofs.Building.Places
import LoxForms.Proofs.Parsing.Cutting
/-!
# Programs composed of parts

A text can be made of parts of other texts and fixed spellings, each on a line of its
own. A `Part` is a text that is read as a phrase wherever the phrase can be read, always
as the same lexemes and with the same value. `Composes` says what a row of symbols reads
of such lines, and it is put together symbol by symbol, along the productions. What is
composed as a program is one: `Composes.ofText`.
-/

namespace LoxForms

open Automaton Building

/-- A text that is read as a phrase with a single value, wherever it stands. -/
structure Part (n : Nonterminal) (s : String) (v : Value) where
  word : List Lexeme
  trees : List (Tree Lexeme)
  /-- The states that the lexemes lead to. -/
  states : List Nat
  states_ne_nil : states ≠ []
  lands : ∀ k q, k ≠ .elseWord → (goto? q n).isSome → Lands k q [.phrase n] word trees states
  cuts : ∀ q, opens q → Cuts q 0 s.toList (word.map Lexeme.bare) states
  build : Tree.buildAll Program.readLexeme trees = .ok [v]

/-- What a row of symbols reads of texts one below the other, and the values that these
stand for. Where the row is read from a state `q`, the first lexeme can be looked for in
the states that are in the relation `looks` to it. -/
def Composes (after : TokenKind) (looks : Nat → Nat → Prop) (slots : List Slot)
    (ss : List String) (vs : List Value) : Prop :=
  ∀ q, (walk? q (slots.filterMap Slot.atom?)).isSome → ∃ w ts qs,
    Lands after q slots w ts qs ∧ Tree.buildAll Program.readLexeme ts = .ok vs ∧
      ∀ o, looks q o → Pieces o ss (w.map Lexeme.bare) qs

variable {after k : TokenKind} {looks : Nat → Nat → Prop} {n : Nonterminal} {slots : List Slot}
variable {s t : String} {ss more : List String} {v : Value} {us vs ws : List Value}

/-- A production reads as its phrase where the phrase can be read. -/
theorem Lands.production {p : Production} {q : Nat} {w : List Lexeme} {ts : List (Tree Lexeme)}
    {qs : List Nat} (hp : p ∈ Grammar.productions) (hq : (goto? q p.phrase).isSome)
    (h : (walk? q p.atoms).isSome → Lands after q p.slots w ts qs) :
    Lands after q [.phrase p.phrase] w (p.shape.apply ts) qs := by
  obtain ⟨r, hr⟩ := Option.isSome_iff_exists.mp hq
  obtain ⟨last, hlast, -⟩ := walk_of_goto hr hp
  have hin := h (Option.isSome_iff_exists.mpr ⟨last, hlast⟩)
  have hlands : Lands after q [.phrase p.phrase] (w ++ []) (p.shape.apply ts ++ []) (qs ++ []) :=
    .phrase hp hr hin .done
  rwa [List.append_nil, List.append_nil, List.append_nil] at hlands

theorem Program.ofTree_of_buildAll {t : Tree Lexeme}
    (h : Tree.buildAll readLexeme [t] = .ok [.list vs]) : ofTree t = .ok vs := by
  obtain ⟨v, hv, _, -, hvs⟩ := Tree.buildAll_cons_eq_ok.mp h
  obtain ⟨rfl, -⟩ := List.cons.inj hvs
  rw [ofTree, hv]
  rfl

/-- **A text is the program that the productions read** of its lexemes. -/
theorem Program.ofText_of_reads {text : String} {parsed : Parsed} {ts : List (Tree Lexeme)}
    (h : Parsed.ofText text = .ok parsed)
    (hreads : Reads .endOfText [.phrase .program] parsed.lexemes ts)
    (hbuild : Tree.buildAll readLexeme ts = .ok [.list vs]) : ofText text = .ok vs := by
  obtain rfl := hreads.tree_unique (Parsed.reads h)
  rw [ofText_of_ofText h, ofTree_of_buildAll hbuild]
  rfl

/-- **A text that is cut as the lexemes of a program is this program**, up to the lines. -/
theorem Program.ofText_of_lands {w : List Lexeme} {ts : List (Tree Lexeme)} {qs : List Nat}
    (hlands : Lands .endOfText 0 [.phrase .program] w ts qs)
    (hbuild : Tree.buildAll readLexeme ts = .ok [.list vs])
    (hpieces : Pieces 0 ss (w.map Lexeme.bare) qs) :
    ∃ program, ofText ("\n".intercalate ss) = .ok program ∧
      program.map Value.unplaced = vs.map Value.unplaced := by
  obtain ⟨children, rfl⟩ := hlands.reads.exists_program
  obtain ⟨q, hvisits, hfinish⟩ := Progress.exists_visits hlands
  obtain ⟨ls, q', hscans, hpath, hlike⟩ := Progress.scans_of_cuts hpieces.cuts .start rfl
    rfl hvisits .nil (.refl .start)
  obtain ⟨parsed, hparsed, hlexemes⟩ := hlike.finish hpath hfinish
  have htext : Parsed.ofText ("\n".intercalate ss) = .ok parsed := hscans.run_eq.trans hparsed
  -- the productions read one tree only of the lexemes of the text
  obtain ⟨ts, hreads, hts⟩ := hlands.reads.elsewhere hlexemes
  obtain rfl := hreads.tree_unique (Parsed.reads htext)
  have htree := ofTree_unplaced (List.cons.inj hts).1
  rw [ofTree_of_buildAll hbuild] at htree
  rw [ofText_of_ofText htext]
  cases hprogram : ofTree parsed.tree with
  | error e =>
    rw [hprogram] at htree
    cases htree
  | ok program =>
    have hsame : (.ok (program.map Value.unplaced) : Except BuildError (List Value)) =
        .ok (vs.map Value.unplaced) := by
      rwa [hprogram] at htree
    exact ⟨program, rfl, Except.ok.inj hsame⟩

namespace Part

/-- The state that the last lexeme of a part leads to. -/
def last (P : Part n s v) : Nat := P.states.getLast P.states_ne_nil

theorem getLastD_states (P : Part n s v) (q : Nat) : P.states.getLastD q = P.last := by
  rw [last, List.getLastD_eq_getLast?, List.getLast?_eq_some_getLast P.states_ne_nil,
    Option.getD_some]

/-- A part that is all that a production reads. -/
def through (P : Part n s v) {p : Production} (hp : p ∈ Grammar.productions)
    (hslots : p.slots = [.phrase n]) {u : Value} (hvalues : p.shape.values [v] = .ok [u]) :
    Part p.phrase s u where
  word := P.word
  trees := p.shape.apply P.trees
  states := P.states
  states_ne_nil := P.states_ne_nil
  cuts := P.cuts
  build := (Shape.buildAll_apply p.shape).mpr ⟨[v], P.build, hvalues⟩
  lands k q hk hq := .production hp hq fun hwalk => by
    rw [Production.atoms, hslots] at hwalk
    have hn : (walk? q [.phrase n]).isSome := hwalk
    rw [walk?_singleton] at hn
    rw [hslots]
    exact P.lands k q hk hn

end Part

namespace Composes

/-- The first lexeme is looked for where the row is read. -/
abbrev here : Nat → Nat → Prop := Eq

/-- The first lexeme is looked for in this state. -/
abbrev inState (o : Nat) : Nat → Nat → Prop := fun _ => Eq o

/-- The first lexeme can be looked for in any state. -/
abbrev anywhere : Nat → Nat → Prop := fun _ _ => True

theorem nil : Composes after looks [] [] [] := fun _ _ => ⟨[], [], [], .done, rfl, fun _ _ => .nil⟩

/-- A fixed spelling that the tree does without. -/
theorem drop (h : k.spelling? = some t.toList) (hrest : Composes after here slots ss vs) :
    Composes after looks (.drop k :: slots) (t :: ss) vs := by
  intro q hwalk
  obtain ⟨r, hr, hwalk⟩ := walk?_cons_isSome.mp hwalk
  obtain ⟨w, ts, qs, hlands, hbuild, hpieces⟩ := hrest r hwalk
  exact ⟨⟨k, t, .start, .start⟩ :: w, ts, r :: qs, .drop rfl hr hlands, hbuild,
    fun o _ => .cons (.spelled h o r) (hpieces r rfl)⟩

theorem absent (helse : .elseWord ∉ Slot.firsts after slots)
    (hrest : Composes after looks slots ss vs) :
    Composes after looks (.absent :: slots) ss (.nil :: vs) := by
  intro q hwalk
  obtain ⟨w, ts, qs, hlands, hbuild, hpieces⟩ := hrest q hwalk
  have hne : upcoming after w ≠ .elseWord :=
    ne_of_mem_of_not_mem hlands.reads.upcoming_mem helse
  exact ⟨w, .absent :: ts, qs, .absent hne hlands,
    Tree.buildAll_cons_eq_ok.mpr ⟨.nil, rfl, vs, hbuild, rfl⟩, hpieces⟩

/-- An expression, a statement and a declaration begin where they are read. -/
theorem opens_here
    (hn : n ∈ [.expression, .statement, .declaration, .declarations, .forInitializer]) :
    ∀ q o, (goto? q n).isSome → here q o → opens o := by
  rintro q _ hq rfl
  exact opens_of_goto hn hq

/-- **A part in the place of a phrase**, where it can begin. -/
theorem part (P : Part n s v) (hopens : ∀ q o, (goto? q n).isSome → looks q o → opens o)
    (helse : .elseWord ∉ Slot.firsts after slots)
    (hrest : Composes after (inState P.last) slots ss vs) :
    Composes after looks (.phrase n :: slots) (s :: ss) (v :: vs) := by
  intro q hwalk
  obtain ⟨r, hr, hwalk⟩ := walk?_cons_isSome.mp hwalk
  have hq : (goto? q n).isSome := Option.isSome_iff_exists.mpr ⟨r, hr⟩
  obtain ⟨w, ts, qs, hlands, hbuild, hpieces⟩ := hrest r hwalk
  have hne : upcoming after w ≠ .elseWord :=
    ne_of_mem_of_not_mem hlands.reads.upcoming_mem helse
  refine ⟨P.word ++ w, P.trees ++ ts, P.states ++ qs,
    (P.lands _ q hne hq).append ((walk?_singleton q _).trans hr) hlands,
    Tree.buildAll_append_eq_ok.mpr ⟨[v], vs, P.build, hbuild, rfl⟩, fun o ho => ?_⟩
  rw [List.map_append]
  refine .cons (P.cuts o (hopens q o hq ho)) ?_
  rw [P.getLastD_states]
  exact hpieces P.last rfl

/-- **A production in the place of its phrase.** -/
theorem production {p : Production} (hp : p ∈ Grammar.productions)
    (hin : ∀ k ∈ Slot.firsts after slots, Composes k looks p.slots ss us)
    (hvalues : p.shape.values us = .ok vs) (hrest : Composes after anywhere slots more ws) :
    Composes after looks (.phrase p.phrase :: slots) (ss ++ more) (vs ++ ws) := by
  intro q hwalk
  obtain ⟨r, hr, hwalk⟩ := walk?_cons_isSome.mp hwalk
  obtain ⟨w, ts, rs, hlands, hbuild, hpieces⟩ := hrest r hwalk
  obtain ⟨last, hlast, -⟩ := walk_of_goto hr hp
  obtain ⟨u, us', qs, hinner, hbuildin, hin⟩ :=
    hin _ hlands.reads.upcoming_mem q (Option.isSome_iff_exists.mpr ⟨last, hlast⟩)
  refine ⟨u ++ w, p.shape.apply us' ++ ts, qs ++ rs, .phrase hp hr hinner hlands,
    Tree.buildAll_append_eq_ok.mpr ⟨vs, ws, ?_, hbuild, rfl⟩, fun o ho => ?_⟩
  · exact (Shape.buildAll_apply p.shape).mpr ⟨us, hbuildin, hvalues⟩
  · rw [List.map_append]
    exact (hin o ho).append (hpieces _ trivial)

/-- A row that is all of a phrase. -/
theorem single {p : Production} (hp : p ∈ Grammar.productions)
    (h : Composes after looks p.slots ss us) (hvalues : p.shape.values us = .ok vs) :
    Composes after looks [.phrase p.phrase] ss vs := by
  have hrow : Composes after looks [.phrase p.phrase] (ss ++ []) (vs ++ []) :=
    production hp (fun k hk => List.mem_singleton.mp hk ▸ h) hvalues nil
  rwa [List.append_nil, List.append_nil] at hrow

theorem named {r : Rule} (hp : Grammar.named n r slots ∈ Grammar.productions)
    (h : Composes after looks slots ss us) (hv : ofRule r us = .ok v) :
    Composes after looks [.phrase n] ss [v] :=
  single hp h (Shape.values_node.mpr ⟨v, ofNode_rule.mpr hv, rfl⟩)

/-- **What is composed as a program is one**, up to the lines. -/
theorem ofText (h : Composes .endOfText here [.phrase .program] ss [.list vs]) :
    ∃ program, Program.ofText ("\n".intercalate ss) = .ok program ∧
      program.map Value.unplaced = vs.map Value.unplaced := by
  have hwalk : (walk? 0 [.phrase .program]).isSome := by
    rw [walk?_singleton, step?_phrase, goto_start]
    rfl
  obtain ⟨w, ts, qs, hlands, hbuild, hpieces⟩ := h 0 hwalk
  exact Program.ofText_of_lands hlands hbuild (hpieces 0 rfl)

end Composes

end LoxForms
