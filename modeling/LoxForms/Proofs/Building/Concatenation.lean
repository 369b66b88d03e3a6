import LoxForms.Proofs.Building.Places
import LoxForms.Proofs.Parsing.Resuming
import LoxForms.Proofs.Parsing.Scanning
/-!
# One program after another

The text of a program can be put below that of another one, and the statements are
those of the first and then those of the second, on the lines where these stand then.
There is one exception: a program can begin with a name that is spelled `else`, and
after a statement this is no name.

The first text is scanned as by itself up to its end (`Scans.append_line`), and the
second one from there on (`Scans.simulate`), by a run that has the same states on its
stack as one over the second text alone, and the declarations of the first text below
(`Progress.Resumes`). The grammar then says what the tree is.
-/

namespace LoxForms

open Automaton

namespace Progress

open Stack

variable {p q : Progress} {l : Lexeme} {ls : List Lexeme}

theorem ne_accepting_of_feed (h : p.feed l = .ok q) (hp : p.stack.IsPath) :
    top q.stack ≠ accepting := by
  obtain ⟨target, s, hs, rfl⟩ := settle_of_feed h
  obtain ⟨-, hstep⟩ := (settle_reads_iff hp).mp hs
  exact ne_of_step_token hstep past_accepting

theorem ne_accepting_of_feedAll (h : p.feedAll ls = .ok q) (hp : p.stack.IsPath)
    (htop : top p.stack ≠ accepting) : top q.stack ≠ accepting := by
  induction ls generalizing p with
  | nil =>
    obtain rfl := Except.ok.inj h
    exact htop
  | cons l ls ih =>
    rw [feedAll_cons] at h
    obtain ⟨p₁, hfeed, hrest⟩ := Building.bind_eq_ok.mp h
    exact ih hrest (isPath_of_feed hp hfeed) (ne_accepting_of_feed hfeed hp)

/-- A run over a text that is read comes to the end of a program. -/
theorem Scans.atEnd {here : Place} {skip : Nat} {cs : List Char} {parsed : Parsed}
    (h : Scans start here skip cs ls q) (hfinish : q.finish = .ok parsed) : q.AtEnd :=
  ⟨(Sound.start.feedAll h.feedAll).1.isPath, ne_accepting_of_feedAll h.feedAll .nil (by decide),
    parsed, hfinish⟩

/-- Where a run over the second of two texts keeps up with one over this text alone:
after a lexeme or more, or else before the first one. -/
def KeepsUp (ls : List Lexeme) (p p' : Progress) : Prop :=
  p.Resumes p' ∨ p = start ∧ p'.AtEnd ∧ ∀ l ∈ ls.head?, l.text ≠ "else"

theorem KeepsUp.step {p' : Progress} {s : List Char} {chars lines : Nat}
    (h : KeepsUp (l :: ls) p p') (hread : Lexeme.read p.wanted s = .token l.kind l.text.toList)
    (hfeed : p.feed l = .ok q) :
    Lexeme.read p'.wanted s = .token l.kind l.text.toList ∧
      ∃ q', p'.feed (l.moved chars lines) = .ok q' ∧ KeepsUp ls q q' := by
  have hkind : (l.moved chars lines).kind = l.kind := rfl
  rcases h with hresumes | ⟨rfl, hend, helse⟩
  · obtain ⟨q', hfeed', hnext⟩ := hresumes.feed hkind hfeed
    exact ⟨hresumes.wanted_eq ▸ hread, q', hfeed', .inl hnext⟩
  · obtain ⟨q', hfeed', hnext⟩ := hend.feed hkind hfeed
    exact ⟨hend.read_eq hfeed (helse l rfl) hread, q', hfeed', .inl hnext⟩

end Progress

open Progress

/-! ## Trees -/

/-- A lexeme of a text that is put below another one. -/
def Lexeme.below (text : String) : Lexeme → Lexeme :=
  moved (text.toList.length + 1) (text.toList.count '\n' + 1)

/-- **Two texts, one below the other, are read as one program**: the lexemes and the
trees of the first, and then those of the second further down. -/
theorem Parsed.ofText_below {a b : String} {above below : Parsed} (ha : ofText a = .ok above)
    (hb : ofText b = .ok below) (helse : ∀ l ∈ below.lexemes.head?, l.text ≠ "else") :
    ∃ ts us, above.tree = .node (.rule .start) ts ∧ below.tree = .node (.rule .start) us ∧
      ofText (a ++ "\n" ++ b) = .ok ⟨.node (.rule .start) (ts ++ Tree.mapAll (Lexeme.below a) us),
        above.lexemes ++ below.lexemes.map (Lexeme.below a)⟩ := by
  obtain ⟨p, hp, hpend⟩ := Parsed.scans ha
  obtain ⟨q, hq, -⟩ := Parsed.scans hb
  have hreads := Parsed.reads ha
  have hreads' := Parsed.reads hb
  obtain ⟨ts, hts⟩ := hreads.exists_program
  obtain ⟨us, hus⟩ := hreads'.exists_program
  rw [hts] at hreads
  rw [hus] at hreads'
  refine ⟨ts, us, (List.cons.inj hts).1, (List.cons.inj hus).1, ?_⟩
  -- the whole text is scanned, the first one by itself and the second one further down
  obtain ⟨r, hr, -⟩ := hq.simulate (R := KeepsUp) KeepsUp.step
    (.inr ⟨rfl, hp.atEnd hpend, helse⟩)
  rw [← Place.after_line] at hr
  have hscan := hp.append_line hr
  -- and the grammar says what its lexemes are read as
  let whole : Parsed := ⟨.node (.rule .start) (ts ++ Tree.mapAll (Lexeme.below a) us),
    above.lexemes ++ below.lexemes.map (Lexeme.below a)⟩
  have hmoved := hreads'.map (f := Lexeme.below a) fun _ => rfl
  have hread : start.feedAll whole.lexemes = .ok r := hscan.feedAll
  have hwhole : (start.feedAll whole.lexemes >>= finish) = .ok whole :=
    finish_feedAll_iff.mpr ⟨rfl, hreads.program_append hmoved⟩
  have htext : (a ++ "\n" ++ b).toList = a.toList ++ '\n' :: b.toList := by
    rw [String.toList_append, String.toList_append, List.append_assoc]
    rfl
  calc
    ofText (a ++ "\n" ++ b) = r.finish := by rw [ofText, htext, hscan.run_eq]
    _ = (start.feedAll whole.lexemes >>= finish) := by rw [hread]; rfl
    _ = .ok whole := hwhole

/-! ## Programs -/

namespace Program

/-- A lexeme that is moved down is the same token, on another line. -/
theorem readLexeme_moved (chars lines : Nat) (l : Lexeme) :
    readLexeme (l.moved chars lines) =
      Value.relined (fun line => line + (lines : Int)) <$> readLexeme l := by
  unfold readLexeme Building.readToken Lexeme.moved Place.moved
  cases TokenKind.ofName? l.kind.grammarName with
  | none => rfl
  | some k =>
    cases k <;> try rfl
    cases Double.ofText? l.text <;> rfl

/-- The statements of a program are what its declarations stand for. -/
theorem ofText_eq_ok_of_tree {text : String} {parsed : Parsed} {ts : List (Tree Lexeme)}
    {statements : List Value} (hp : Parsed.ofText text = .ok parsed)
    (ht : parsed.tree = .node (.rule .start) ts) :
    ofText text = .ok statements ↔
      Tree.buildAll readLexeme ts = .ok statements ∧ ∀ s ∈ statements, s.isStatement := by
  have hbuild : ∀ v, parsed.tree.build readLexeme = .ok v ↔
      ∃ vs, Tree.buildAll readLexeme ts = .ok vs ∧ (∀ s ∈ vs, s.isStatement) ∧ v = .list vs := by
    intro v
    rw [ht, Tree.build]
    simp only [Building.bind_eq_ok, Building.ofNode_rule, Building.ofRule_start]
  rw [ofText_eq_ok]
  constructor
  · rintro ⟨parsed', hp', v, hv, rfl⟩
    obtain rfl := Except.ok.inj (hp'.symm.trans hp)
    obtain ⟨vs, hvs, hall, rfl⟩ := (hbuild v).mp hv
    exact ⟨hvs, hall⟩
  · rintro ⟨hvs, hall⟩
    exact ⟨parsed, hp, .list statements, (hbuild _).mpr ⟨statements, hvs, hall, rfl⟩, rfl⟩

/-- **Programs compose.** The program of two texts, one below the other, is that of the
first and then that of the second with its lines counted on, unless the second begins
with a name that is spelled `else`. -/
theorem ofText_append {a b : String} {above below : List Value} (ha : ofText a = .ok above)
    (hb : ofText b = .ok below)
    (helse : ∀ parsed, Parsed.ofText b = .ok parsed →
      ∀ l ∈ parsed.lexemes.head?, l.text ≠ "else") :
    ofText (a ++ "\n" ++ b) =
      .ok (above ++ below.map (Value.relined fun line => line + (1 + a.toList.count '\n'))) := by
  obtain ⟨upper, hupper, -⟩ := ofText_eq_ok.mp ha
  obtain ⟨lower, hlower, -⟩ := ofText_eq_ok.mp hb
  obtain ⟨ts, us, hts, hus, hwhole⟩ := Parsed.ofText_below hupper hlower (helse lower hlower)
  obtain ⟨habove, hfirst⟩ := (ofText_eq_ok_of_tree hupper hts).mp ha
  obtain ⟨hbelow, hsecond⟩ := (ofText_eq_ok_of_tree hlower hus).mp hb
  have hline : ∀ l, readLexeme (l.below a) =
      Value.relined (fun line => line + (1 + a.toList.count '\n')) <$> readLexeme l := by
    intro l
    have hcount : ∀ line : Int, line + ((a.toList.count '\n' + 1 : Nat) : Int) =
        line + (1 + a.toList.count '\n') := by omega
    simp only [Lexeme.below, readLexeme_moved, hcount]
  refine (ofText_eq_ok_of_tree hwhole rfl).mpr ⟨?_, ?_⟩
  · refine Tree.buildAll_append_eq_ok.mpr ⟨above, _, habove, ?_, rfl⟩
    rw [Tree.buildAll_map hline, hbelow]
    rfl
  · intro s hs
    rcases List.mem_append.mp hs with hs | hs
    · exact hfirst s hs
    · obtain ⟨s, hmem, rfl⟩ := List.mem_map.mp hs
      rw [Value.isStatement_relined]
      exact hsecond s hmem

/-- The lines of a text between quotes count as well, and the break that ends a comment. -/
theorem ofText_append_elsewhere : ∃ above below,
    ofText "print \"x\ny\"; // z" = .ok above ∧ ofText "elsewhere;" = .ok below ∧
    ofText "print \"x\ny\"; // z\nelsewhere;" =
      .ok (above ++ below.map (Value.relined fun line => line + 2)) := by
  have hmade : (ofText "print \"x\ny\"; // z").toOption.isSome ∧
      (ofText "elsewhere;").toOption.isSome := by decide +kernel
  have hword : ((Parsed.ofText "elsewhere;").toOption.bind (·.lexemes.head?)).map (·.text) =
      some "elsewhere" := by decide +kernel
  have hcount : "print \"x\ny\"; // z".toList.count '\n' = 1 := by decide +kernel
  have htext : "print \"x\ny\"; // z" ++ "\n" ++ "elsewhere;" =
      "print \"x\ny\"; // z\nelsewhere;" := by decide +kernel
  cases ha : ofText "print \"x\ny\"; // z" with
  | error e => simp [ha, Except.toOption] at hmade
  | ok above =>
    cases hb : ofText "elsewhere;" with
    | error e => simp [hb, Except.toOption] at hmade
    | ok below =>
      refine ⟨above, below, rfl, rfl, ?_⟩
      have hwhole := ofText_append ha hb fun parsed hparsed l hl => by
        rw [hparsed] at hword
        obtain ⟨l', hl', hspelled⟩ := Option.map_eq_some_iff.mp hword
        obtain rfl := Option.mem_unique hl hl'
        rw [hspelled]
        decide
      rw [htext, hcount] at hwhole
      exact hwhole

/-- By itself a name that is spelled `else` is a program, and after a statement it is
a keyword. -/
example : (ofText "a;").toOption.isSome ∧ (ofText "else;").toOption.isSome ∧
    (ofText "a;\nelse;").toOption.isSome = false := by
  decide +kernel

end Program

end LoxForms
