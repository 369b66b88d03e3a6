import LoxForms.Proofs.Automaton.Completeness
import LoxForms.Proofs.Building.Lines
import LoxForms.Proofs.Writing.Normal
import Mathlib.Data.List.Induction
/-!
# Regaining values

A row of slots regains values from signs if whatever lexemes have these signs
are read by it and stand for these values, up to lines (`Regains`). It is put
together slot by slot, and production by production. What comes next matters
only for an optional part that is missing, since this is not done before an
`else`.
-/

namespace LoxForms

open Building Value

/-- What lexemes with given signs are read as before a lexeme of the kind
`after`: whichever they are, they stand for these values. -/
def Regains (after : TokenKind) (slots : List Slot) (gs : List Sign) (vs : List Value) : Prop :=
  ∀ w : List Lexeme, w.map Lexeme.sign = gs → ∃ ts us, Reads after slots w ts ∧
    Tree.buildAll Program.readLexeme ts = .ok us ∧ us.map unplaced = vs.map unplaced

namespace Regains

variable {after : TokenKind} {slots more : List Slot} {gs hs : List Sign} {vs ws : List Value}
variable {g : Sign} {k : TokenKind} {v : Value} {p : Production}

theorem done : Regains after [] [] [] := by
  intro w hw
  obtain rfl := List.map_eq_nil_iff.mp hw
  exact ⟨[], [], .done, rfl, rfl⟩

/-- A token that is kept has the value that its sign has. -/
theorem keep (h : Regains after slots gs vs)
    (hk : ∀ l : Lexeme, l.sign = g →
      l.kind = k ∧ ∃ u, Program.readLexeme l = .ok u ∧ unplaced u = unplaced v) :
    Regains after (.keep k :: slots) (g :: gs) (v :: vs) := by
  intro w hw
  obtain ⟨l, w, rfl, hl, hw⟩ := List.map_eq_cons_iff.mp hw
  obtain ⟨hkind, u, hu, hv⟩ := hk l hl
  obtain ⟨ts, us, hreads, hus, hvs⟩ := h w hw
  refine ⟨.leaf l :: ts, u :: us, .keep hkind hreads, ?_, ?_⟩
  · exact Tree.buildAll_cons_eq_ok.mpr ⟨u, hu, us, hus, rfl⟩
  · rw [List.map_cons, List.map_cons, hv, hvs]

/-- An operator is regained from what it looks like. -/
theorem operator (hv : IsOperator k v) (hname : k.grammarName = k.name)
    (hnumber : k ≠ .number) (hstring : k ≠ .string) (h : Regains after slots gs vs) :
    Regains after (.keep k :: slots) (spell v ++ gs) (v :: vs) := by
  obtain ⟨line, rfl⟩ := hv
  refine h.keep fun l hl => ?_
  rw [Sign.ofToken_nil] at hl
  obtain ⟨hkind, htext⟩ := Lexeme.of_sign_word hl
  exact ⟨hkind, _, Program.readLexeme_of_kind hkind hname hnumber hstring, by rw [htext]; rfl⟩

theorem name (hv : IsName v) (h : Regains after slots gs vs) :
    Regains after (.keep .identifier :: slots) (spell v ++ gs) (v :: vs) := by
  obtain ⟨lexeme, line, -, rfl⟩ := hv
  refine h.keep fun l hl => ?_
  obtain ⟨hkind, htext⟩ := Lexeme.of_sign_word hl
  exact ⟨hkind, _, Program.readLexeme_of_kind hkind rfl (by decide) (by decide),
    by rw [htext]; rfl⟩

theorem drop (h : Regains after slots gs vs) :
    Regains after (.drop k :: slots) (.fixed k :: gs) vs := by
  intro w hw
  obtain ⟨l, w, rfl, hl, hw⟩ := List.map_eq_cons_iff.mp hw
  obtain ⟨ts, us, hreads, hus, hvs⟩ := h w hw
  exact ⟨ts, us, .drop (Lexeme.of_sign_word hl).1 hreads, hus, hvs⟩

theorem absent (hne : .elseWord ∉ Slot.firsts after slots) (h : Regains after slots gs vs) :
    Regains after (.absent :: slots) gs (.nil :: vs) := by
  intro w hw
  obtain ⟨ts, us, hreads, hus, hvs⟩ := h w hw
  refine ⟨.absent :: ts, .nil :: us, .absent (fun heq => ?_) hreads, ?_, ?_⟩
  · exact hne (heq ▸ hreads.upcoming_mem)
  · exact Tree.buildAll_cons_eq_ok.mpr ⟨.nil, rfl, us, hus, rfl⟩
  · rw [List.map_cons, List.map_cons, hvs]

/-- Two rows side by side: what comes after the first is what can come first in
the second. -/
theorem append (h : ∀ k ∈ Slot.firsts after more, Regains k slots gs vs)
    (h' : Regains after more hs ws) : Regains after (slots ++ more) (gs ++ hs) (vs ++ ws) := by
  intro w hw
  obtain ⟨u, w, rfl, hu, hw⟩ := List.map_eq_append_iff.mp hw
  obtain ⟨ts', us', hreads', hus', hvs'⟩ := h' w hw
  obtain ⟨ts, us, hreads, hus, hvs⟩ := h _ hreads'.upcoming_mem u hu
  refine ⟨ts ++ ts', us ++ us', hreads.append hreads', ?_, ?_⟩
  · exact Tree.buildAll_append_eq_ok.mpr ⟨us, us', hus, hus', rfl⟩
  · rw [List.map_append, List.map_append, hvs, hvs']

/-- A phrase before other slots. -/
theorem phrase {n : Nonterminal} (h : ∀ k ∈ Slot.firsts after slots, Regains k [.phrase n] gs vs)
    (h' : Regains after slots hs ws) :
    Regains after (.phrase n :: slots) (gs ++ hs) (vs ++ ws) :=
  append h h'

/-- **A production regains what it makes of the values of its row.** -/
theorem production (hp : p ∈ Grammar.productions) (h : Regains after p.slots gs vs)
    (hv : p.shape.values vs = .ok ws) : Regains after [.phrase p.phrase] gs ws := by
  intro w hw
  obtain ⟨ts, us, hreads, hus, hvs⟩ := h w hw
  obtain ⟨us', hus', hws⟩ := Shape.values_congr hvs hv
  exact ⟨_, us', hreads.production hp, (Shape.buildAll_apply p.shape).mpr ⟨us, hus, hus'⟩, hws⟩

theorem named {n : Nonterminal} {r : Rule} (hp : Grammar.named n r slots ∈ Grammar.productions)
    (h : Regains after slots gs vs) (hv : ofRule r vs = .ok v) :
    Regains after [.phrase n] gs [v] :=
  production hp h (Shape.values_node.mpr ⟨v, ofNode_rule.mpr hv, rfl⟩)

/-- A production whose row is spelled as the value that is made of it. -/
theorem made {n : Nonterminal} {r : Rule} (h : Regains after slots gs vs)
    (hp : Grammar.named n r slots ∈ Grammar.productions) (hv : ofRule r vs = .ok v)
    (hspell : spell v = gs) : Regains after [.phrase n] (spell v) [v] := by
  rw [hspell]
  exact named hp h hv

/-- A phrase that stands for another one leaves its value as it is. -/
theorem through {n m : Nonterminal} {l : Label}
    (hp : ⟨n, [.phrase m], .nodeUnlessSingle l⟩ ∈ Grammar.productions)
    (h : Regains after [.phrase m] gs [v]) : Regains after [.phrase n] gs [v] :=
  production hp h rfl

/-- The elements of a list one by one, if none of them begins with an `else`. -/
theorem listOf {n : Nonterminal} {spellEvery : List Value → List Sign} (element : List Slot)
    (hmem : ∀ p ∈ Grammar.listOf n element, p ∈ Grammar.productions)
    (happend : ∀ us vs, spellEvery (us ++ vs) = spellEvery us ++ spellEvery vs)
    (hfirst : ∀ after, .elseWord ∉ Slot.firsts after element)
    (hvs : ∀ v ∈ vs, ∀ after ≠ .elseWord, Regains after element (spellEvery [v]) [v])
    (hne : vs ≠ []) (hafter : after ≠ .elseWord) : Regains after [.phrase n] (spellEvery vs) vs := by
  have hone : ⟨n, element, .splice⟩ ∈ Grammar.productions := hmem _ List.mem_cons_self
  have hmore : ⟨n, .phrase n :: element, .splice⟩ ∈ Grammar.productions :=
    hmem _ (List.mem_cons_of_mem _ List.mem_cons_self)
  induction vs using List.reverseRecOn generalizing after with
  | nil => exact absurd rfl hne
  | append_singleton init v ih =>
    have hv := hvs v (by simp) after hafter
    by_cases hinit : init = []
    · subst hinit
      exact production hone hv rfl
    · rw [happend]
      refine production hmore (phrase (fun k hk => ?_) hv) rfl
      refine ih (fun u hu => hvs u (List.mem_append_left _ hu)) hinit ?_
      rintro rfl
      exact hfirst after hk

end Regains

end LoxForms
