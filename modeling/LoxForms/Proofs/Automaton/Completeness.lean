import LoxForms.Proofs.Automaton.Landing
import LoxForms.Proofs.Automaton.Soundness
/-!
# All that can be read

What the productions read, the automaton reads. The proof goes along with the
reading: from any state in which a row of symbols can be read, the automaton
gets to the state behind them, with a frame for each symbol (`goes_of_lands`).
For this the productions have to be finished in time. They are, since the kind
that comes next is one that can follow (`Slot.followed`), and since where an
`else` can be read instead, the next lexeme is none.

So a row of lexemes is read as a program if and only if the productions read
it, and the tree is theirs: `finish_feedAll_iff`.
-/

namespace LoxForms

/-! ## What can come first, and next -/

/-- The kinds that a phrase can begin with. A program can be empty, and then
anything comes first. -/
def Nonterminal.first : Nonterminal → List TokenKind
  | program => TokenKind.all
  | declarations | declaration => [TokenKind.classWord, .funWord, .varWord] ++ statementStarts
  | statement => statementStarts
  | classDecl => [.classWord]
  | superclass => [.less]
  | funDecl => [.funWord]
  | methods | function | parameters => [.identifier]
  | moreParameters | moreArguments => [.comma]
  | varDecl => [.varWord]
  | forInitializer => [TokenKind.varWord, .semicolon] ++ expressionStarts
  | forStmt => [.forWord]
  | ifStmt => [.ifWord]
  | printStmt => [.printWord]
  | returnStmt => [.returnWord]
  | whileStmt => [.whileWord]
  | block => [.leftBrace]
  | orTail => [.orWord]
  | andTail => [.andWord]
  | equalityTail => [.bangEqual, .equalEqual]
  | comparisonTail => [.greater, .greaterEqual, .less, .lessEqual]
  | termTail => [.minus, .plus]
  | factorTail => [.slash, .star]
  | exprStmt | expression | assignment | logicOr | logicAnd | equality | comparison | term
  | factor | unary | callChain | arguments | primary => expressionStarts

namespace Slot

/-- The kinds that can come first where a row of slots is to be read. -/
def firsts (after : TokenKind) : List Slot → List TokenKind
  | [] => [after]
  | .keep k :: _ | .drop k :: _ => [k]
  | .phrase n :: _ => n.first
  | .absent :: rest => firsts after rest

/-- Whether after each phrase of a row only such kinds come as can follow it. -/
def followed (after : TokenKind) : List Slot → Bool
  | [] => true
  | .phrase n :: rest => (firsts after rest).all n.follow.contains && followed after rest
  | _ :: rest => followed after rest

end Slot

namespace Grammar

variable {p : Production} {k : TokenKind}

theorem firsts_subset (hp : p ∈ productions) : Slot.firsts k p.slots ⊆ p.phrase.first := by
  have all_firsts : ∀ p ∈ productions.toList, ∀ k ∈ TokenKind.all,
      ∀ j ∈ Slot.firsts k p.slots, j ∈ p.phrase.first := by decide +kernel
  exact all_firsts p (Array.mem_toList_iff.mpr hp) k k.mem_all

theorem followed_of_mem (hp : p ∈ productions) (hk : k ∈ p.phrase.follow) :
    Slot.followed k p.slots := by
  have all_followed : ∀ p ∈ productions.toList, ∀ k ∈ p.phrase.follow,
      Slot.followed k p.slots := by decide +kernel
  exact all_followed p (Array.mem_toList_iff.mpr hp) k hk

end Grammar

namespace Reads

variable {after : TokenKind} {slots : List Slot} {w : List Lexeme} {ts : List (Tree Lexeme)}

theorem upcoming_mem (h : Reads after slots w ts) : upcoming after w ∈ Slot.firsts after slots := by
  induction h with
  | done => exact List.mem_singleton_self _
  | keep hl _ _ => exact List.mem_singleton.mpr hl
  | drop hl _ _ => exact List.mem_singleton.mpr hl
  | absent _ _ ih => exact ih
  | phrase hp _ _ ihin _ =>
    rw [upcoming_append]
    exact Grammar.firsts_subset hp ihin

theorem ne_else_of_getLast (h : Reads after slots w ts)
    (hl : slots.getLast? = some .absent) : after ≠ .elseWord := by
  induction h with
  | done => exact absurd hl (by simp)
  | @absent _ slots _ _ hn hrest ih =>
    cases slots with
    | nil =>
      cases hrest
      exact hn
    | cons s slots => exact ih (by rwa [List.getLast?_cons_cons] at hl)
  | @keep _ _ _ slots _ _ _ _ ih | @drop _ _ _ slots _ _ _ _ ih
  | @phrase _ _ slots _ _ _ _ _ _ _ _ ih =>
    cases slots with
    | nil => exact absurd hl (by simp)
    | cons s slots => exact ih (by rwa [List.getLast?_cons_cons] at hl)

end Reads

/-! ## Going on -/

namespace Automaton

namespace Stack

/-- Reading lexemes, which lead to some states, and finishing productions, in some
order. What is finished last is finished before a lexeme of the kind `after`. -/
inductive Goes (after : TokenKind) : Stack → List Lexeme → List Nat → Stack → Prop
  | refl {s : Stack} : Goes after s [] [] s
  | read {s s' : Stack} {l : Lexeme} {q : Nat} {w : List Lexeme} {qs : List Nat} :
      step? (top s) (.token l.kind) = some q → Goes after (⟨q, [.leaf l]⟩ :: s) w qs s' →
      Goes after s (l :: w) (q :: qs) s'
  | finish {s s₁ s' : Stack} {p : Production} {w : List Lexeme} {qs : List Nat} :
      action? (top s) (upcoming after w) = some (.reduce p) → reduce? s p = some s₁ →
      Goes after s₁ w qs s' → Goes after s w qs s'

theorem Goes.trans {after : TokenKind} {s₀ s₁ s₂ : Stack} {u w : List Lexeme} {qs rs : List Nat}
    (h : Goes (upcoming after w) s₀ u qs s₁) (h' : Goes after s₁ w rs s₂) :
    Goes after s₀ (u ++ w) (qs ++ rs) s₂ := by
  induction h with
  | refl => exact h'
  | read hq _ ih => exact .read hq (ih h')
  | finish ha hr _ ih =>
    rw [← upcoming_append] at ha
    exact .finish ha hr (ih h')

end Stack

open Stack

/-- A production is finished where it is complete, before a kind that can
follow and is no `else` in the place of a missing part. -/
theorem action?_of_complete {q : Nat} {k : TokenKind} {p : Production}
    (hp : complete? q = some p) (hk : k ∈ p.phrase.follow)
    (helse : p.slots.getLast? = some .absent → k ≠ .elseWord) :
    action? q k = some (.reduce p) := by
  refine action?_eq_reduce.mpr ⟨?_, hp, hk⟩
  rw [step?_token, Option.eq_none_iff_forall_not_mem]
  intro r hr
  obtain ⟨rfl, hlast⟩ := shift_of_complete hp hk hr
  exact helse hlast rfl

/-- Finishing a production takes its own frames off, and no others. -/
theorem reduce?_append {frames : List Frame} {s : Stack} {p : Production} {q : Nat}
    (hlen : frames.length = p.arity) (hq : goto? (top s) p.phrase = some q) :
    reduce? (frames.reverse ++ s) p = some (⟨q, p.shaped (frames.map Frame.trees)⟩ :: s) := by
  have hrev : frames.reverse.length = p.arity := by rw [List.length_reverse, hlen]
  simp only [reduce?, ← hrev, List.drop_left, List.take_left, hq, Option.map_some,
    List.reverse_reverse]

/-- **Whatever can be read from a state on, the automaton reads from there**,
and its frames hold the trees. -/
theorem goes_of_lands {after : TokenKind} {q : Nat} {slots : List Slot} {w : List Lexeme}
    {ts : List (Tree Lexeme)} {qs : List Nat} (h : Lands after q slots w ts qs) {s : Stack}
    (htop : top s = q) (hf : Slot.followed after slots) :
    ∃ frames : List Frame, Goes after s w qs (frames.reverse ++ s) ∧
      walk? q (slots.filterMap Slot.atom?) = some (top (frames.reverse ++ s)) ∧
      frames.length = (slots.filterMap Slot.atom?).length ∧
      Production.children slots (frames.map Frame.trees) = ts := by
  induction h generalizing s with
  | done => exact ⟨[], .refl, congrArg some htop.symm, rfl, rfl⟩
  | @keep after k q r l slots w ts rs hl hr _ ih | @drop after k q r l slots w ts rs hl hr _ ih =>
    obtain ⟨frames, hgoes, hwalk, hlen, rfl⟩ := ih (s := ⟨r, [.leaf l]⟩ :: s) rfl hf
    subst hl htop
    refine ⟨⟨r, [.leaf l]⟩ :: frames, ?_, ?_, congrArg (· + 1) hlen, rfl⟩
    · rw [List.reverse_cons, List.append_assoc]
      exact .read hr hgoes
    · rw [List.reverse_cons, List.append_assoc]
      exact (walk?_of_step (a := .token _) hr _).trans hwalk
  | absent _ _ ih =>
    obtain ⟨frames, hgoes, hwalk, hlen, rfl⟩ := ih htop hf
    exact ⟨frames, hgoes, hwalk, hlen, rfl⟩
  | @phrase after p q r slots u w us ts qs rs hp hr hin hrest ihin ih =>
    rw [Slot.followed, Bool.and_eq_true, List.all_eq_true] at hf
    have hfollow : upcoming after w ∈ p.phrase.follow :=
      List.contains_iff_mem.mp (hf.1 _ hrest.reads.upcoming_mem)
    -- first the symbols of the production, up to where it is complete
    obtain ⟨inner, hinner, hlast, hlen, hus⟩ := ihin htop (Grammar.followed_of_mem hp hfollow)
    obtain ⟨last, hwalk, hcomplete⟩ := walk_of_goto hr hp
    obtain rfl := Option.some.inj (hlast.symm.trans hwalk)
    -- then the phrase takes their place
    have haction := action?_of_complete hcomplete hfollow hin.reads.ne_else_of_getLast
    subst htop
    have hreduce := reduce?_append hlen hr
    obtain ⟨frames, hgoes, hwalk', hlen', hts⟩ :=
      ih (s := ⟨r, p.shaped (inner.map Frame.trees)⟩ :: s) rfl hf.2
    refine ⟨⟨r, p.shaped (inner.map Frame.trees)⟩ :: frames, ?_, ?_, congrArg (· + 1) hlen', ?_⟩
    · rw [List.reverse_cons, List.append_assoc]
      exact hinner.trans (.finish haction hreduce hgoes)
    · rw [List.reverse_cons, List.append_assoc]
      exact (walk?_of_step (a := .phrase _) hr _).trans hwalk'
    · rw [List.map_cons, Production.children, hts, Production.shaped, hus]

end Automaton

/-! ## Reading a row of lexemes -/

namespace Progress

open Automaton Stack

def feedAll (p : Progress) (ls : List Lexeme) : Except SyntaxError Progress := ls.foldlM feed p

theorem feedAll_nil (p : Progress) : p.feedAll [] = .ok p := rfl

theorem feedAll_cons (p : Progress) (l : Lexeme) (ls : List Lexeme) :
    p.feedAll (l :: ls) = p.feed l >>= fun q => q.feedAll ls := rfl

theorem feed_of_step {s : Stack} {read : List Lexeme} {l : Lexeme} {q : Nat} (hs : s.IsPath)
    (hq : step? (top s) (.token l.kind) = some q) :
    feed ⟨s, read⟩ l = .ok ⟨⟨q, [.leaf l]⟩ :: s, l :: read⟩ := by
  rw [feed, (settle_reads_iff hs).mpr ⟨.refl, hq⟩]

/-- Finishing a production first makes no difference to a lexeme. -/
theorem feed_of_reduce {s s' : Stack} {read : List Lexeme} {l : Lexeme} {p : Production}
    (hs : s.IsPath) (ha : action? (top s) l.kind = some (.reduce p))
    (hr : reduce? s p = some s') : feed ⟨s, read⟩ l = feed ⟨s', read⟩ l := by
  rw [feed, feed, settle_of_reduce hs ha hr]
  rfl

/-- Lexemes that are read one after the other, and the states that they lead to. -/
inductive Visits : Progress → List Lexeme → List Nat → Progress → Prop
  | done {p : Progress} : Visits p [] [] p
  | next {p q r : Progress} {l : Lexeme} {ls : List Lexeme} {qs : List Nat} :
      p.feed l = .ok q → Visits q ls qs r → Visits p (l :: ls) (top q.stack :: qs) r

namespace Visits

variable {p q q' r : Progress} {ls ms : List Lexeme} {qs qs' rs : List Nat}

theorem feedAll (h : p.Visits ls qs q) : p.feedAll ls = .ok q := by
  induction h with
  | done => rfl
  | next hfeed _ ih => rw [feedAll_cons, hfeed]; exact ih

theorem of_append (h : p.Visits (ls ++ ms) qs r) : ∃ qs₁ qs₂ q, qs = qs₁ ++ qs₂ ∧
    p.Visits ls qs₁ q ∧ q.Visits ms qs₂ r := by
  induction ls generalizing p qs with
  | nil => exact ⟨[], qs, p, rfl, .done, h⟩
  | cons l ls ih =>
    cases h with
    | next hfeed hrest =>
      obtain ⟨qs₁, qs₂, q, rfl, hvisits, hmore⟩ := ih hrest
      exact ⟨_ :: qs₁, qs₂, q, rfl, .next hfeed hvisits, hmore⟩

theorem length_eq (h : p.Visits ls qs q) : qs.length = ls.length := by
  induction h with
  | done => rfl
  | next _ _ ih => exact congrArg (· + 1) ih

theorem top_eq (h : p.Visits ls qs q) : top q.stack = qs.getLastD (top p.stack) := by
  induction h with
  | done => rfl
  | next _ _ ih => rw [ih, List.getLastD_cons]

/-- The states are settled by the lexemes. -/
theorem states_eq (h : p.Visits ls qs q) (h' : p.Visits ls qs' q') : qs = qs' := by
  induction h generalizing qs' with
  | done =>
    cases h'
    rfl
  | next hfeed _ ih =>
    cases h' with
    | next hfeed' hrest =>
      obtain rfl := Except.ok.inj (hfeed.symm.trans hfeed')
      rw [ih hrest]

end Visits

theorem visits_of_goes {after : TokenKind} {s s' : Stack} {w : List Lexeme} {qs : List Nat}
    (h : Goes after s w qs s') (hs : s.IsPath) (read : List Lexeme) :
    ∃ s₁, Visits ⟨s, read⟩ w qs ⟨s₁, w.reverse ++ read⟩ ∧ s₁.IsPath ∧ Finishes after s₁ s' := by
  induction h generalizing read with
  | @refl s => exact ⟨s, .done, hs, .refl⟩
  | @read s s' l q w qs hq _ ih =>
    obtain ⟨s₁, hvisits, hpath, hfin⟩ := ih (.cons hq hs) (l :: read)
    refine ⟨s₁, ?_, hpath, hfin⟩
    rw [List.reverse_cons, List.append_assoc]
    exact .next (feed_of_step hs hq) hvisits
  | @finish s s₁ s' p w qs ha hr _ ih =>
    obtain ⟨s₂, hvisits, hpath, hfin⟩ := ih (hs.reduce hr) read
    cases w with
    | nil =>
      cases hvisits
      exact ⟨s, .done, hs, .step ha hr hfin⟩
    | cons l w =>
      refine ⟨s₂, ?_, hpath, hfin⟩
      cases hvisits with
      | next hfeed hrest => exact .next ((feed_of_reduce hs ha hr).trans hfeed) hrest

theorem Sound.feedAll {p q : Progress} {w : List Lexeme} (h : p.Sound)
    (hf : p.feedAll w = .ok q) : q.Sound ∧ q.read = w.reverse ++ p.read := by
  induction w generalizing p with
  | nil =>
    obtain rfl := Except.ok.inj hf
    exact ⟨h, rfl⟩
  | cons l w ih =>
    rw [feedAll_cons] at hf
    cases hl : p.feed l with
    | error e => rw [hl] at hf; exact absurd hf (by simp [bind, Except.bind])
    | ok p₁ =>
      rw [hl] at hf
      obtain ⟨hp₁, hread⟩ := h.feed hl
      obtain ⟨hq, hread'⟩ := ih hp₁ hf
      exact ⟨hq, by rw [hread', hread, List.reverse_cons, List.append_assoc]; rfl⟩

/-- **What a program reads, the automaton reads**, and then it comes to an end with the
tree of the program. -/
theorem exists_visits {w : List Lexeme} {tree : Tree Lexeme} {qs : List Nat}
    (h : Lands .endOfText 0 [.phrase .program] w [tree] qs) :
    ∃ q, start.Visits w qs q ∧ q.finish = .ok ⟨tree, w⟩ := by
  obtain ⟨frames, hgoes, hwalk, hlen, htrees⟩ := goes_of_lands h (s := []) rfl (by decide)
  obtain ⟨s₁, hvisits, hpath, hfin⟩ := visits_of_goes hgoes .nil []
  obtain ⟨f, rfl⟩ := List.length_eq_one_iff.mp hlen
  have htop : accepting = top [f] :=
    Option.some.inj (goto_start.symm.trans ((walk?_singleton 0 _).symm.trans hwalk))
  have hends := (settle_ends_iff hpath).mpr ⟨hfin, htop.symm, rfl⟩
  have hf : f.trees = [tree] := by simpa [Production.children] using htrees
  refine ⟨_, hvisits, ?_⟩
  rw [finish, hends]
  simp [hf]

/-- **A row of lexemes is read as a program exactly if the productions read
it**, and the tree is the one that they make. -/
theorem finish_feedAll_iff {w : List Lexeme} {parsed : Parsed} :
    (start.feedAll w >>= finish) = .ok parsed ↔
      parsed.lexemes = w ∧ Reads .endOfText [.phrase .program] w [parsed.tree] := by
  constructor
  · intro h
    cases hw : start.feedAll w with
    | error e => rw [hw] at h; exact absurd h (by simp [bind, Except.bind])
    | ok q =>
      rw [hw] at h
      obtain ⟨hq, hread⟩ := Sound.start.feedAll hw
      obtain ⟨hlex, hreads⟩ := hq.finish h
      have hw' : parsed.lexemes = w := by
        rw [hlex, hread, Progress.start, List.append_nil, List.reverse_reverse]
      exact ⟨hw', hw' ▸ hreads⟩
  · rintro ⟨rfl, h⟩
    have hgoto : (goto? 0 .program).isSome := by rw [goto_start]; rfl
    obtain ⟨qs, hlands⟩ := h.lands_phrase hgoto
    obtain ⟨q, hvisits, hfinish⟩ := exists_visits (hlands .endOfText 0 (.inl rfl) hgoto)
    rw [hvisits.feedAll]
    exact hfinish

end Progress

/-- **There is one tree at most that the productions read a text as.** -/
theorem Reads.tree_unique {w : List Lexeme} {ts us : List (Tree Lexeme)}
    (h : Reads .endOfText [.phrase .program] w ts) (h' : Reads .endOfText [.phrase .program] w us) :
    ts = us := by
  obtain ⟨children, rfl⟩ := h.exists_program
  obtain ⟨children', rfl⟩ := h'.exists_program
  let parsed : Parsed := ⟨.node (.rule .start) children, w⟩
  let parsed' : Parsed := ⟨.node (.rule .start) children', w⟩
  have hread : (Progress.start.feedAll w >>= Progress.finish) = .ok parsed :=
    Progress.finish_feedAll_iff.mpr ⟨rfl, h⟩
  have hread' : (Progress.start.feedAll w >>= Progress.finish) = .ok parsed' :=
    Progress.finish_feedAll_iff.mpr ⟨rfl, h'⟩
  have hsame : parsed = parsed' := Except.ok.inj (hread.symm.trans hread')
  rw [(Parsed.mk.inj hsame).1]

end LoxForms
