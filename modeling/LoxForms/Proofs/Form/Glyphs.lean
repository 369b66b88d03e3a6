import LoxForms.Form
/-!
# Glyphs

A form is written with characters and with groups. A group stands in parentheses
and has words in it, a blank between each two of them; a word is made of glyphs
again. What is written with glyphs can be taken apart in one way only, if no
character of it is a blank or a parenthesis: `renderAll_injective`.
-/

namespace LoxForms

namespace Form

inductive Glyph where
  | char (c : Char)
  /-- A first word, and then others. -/
  | group (head : List Glyph) (words : List (List Glyph))

namespace Glyph

mutual

def render : Glyph → List Char
  | char c => [c]
  | group head words => '(' :: (renderAll head ++ renderWords words ++ [')'])

def renderAll : List Glyph → List Char
  | [] => []
  | g :: gs => render g ++ renderAll gs

/-- Words, each behind a blank. -/
def renderWords : List (List Glyph) → List Char
  | [] => []
  | w :: ws => ' ' :: (renderAll w ++ renderWords ws)

end

/-- The characters that tell groups and words apart. -/
def isMark (c : Char) : Bool := [' ', '(', ')'].contains c

mutual

/-- To have no mark among the characters. -/
def clean : Glyph → Bool
  | char c => !isMark c
  | group head words => cleanAll head && cleanWords words

def cleanAll : List Glyph → Bool
  | [] => true
  | g :: gs => clean g && cleanAll gs

def cleanWords : List (List Glyph) → Bool
  | [] => true
  | w :: ws => cleanAll w && cleanWords ws

end

/-! ## Taking apart -/

/-- To begin with a mark that ends a word, if with anything. -/
def EndsWord (r : List Char) : Prop := ∀ c ∈ r.head?, c = ' ' ∨ c = ')'

theorem endsWord_renderWords (ws : List (List Glyph)) (r : List Char) :
    EndsWord (renderWords ws ++ ')' :: r) := by
  intro c hc
  cases ws with
  | nil =>
    rw [renderWords, List.nil_append] at hc
    exact .inr (Option.some.inj hc).symm
  | cons w ws =>
    rw [renderWords, List.cons_append] at hc
    exact .inl (Option.some.inj hc).symm

/-- A clean glyph does not begin as what ends a word. -/
theorem not_endsWord_render {g : Glyph} (hg : g.clean) (r : List Char) :
    ¬ EndsWord (render g ++ r) := by
  intro h
  cases g with
  | char c =>
    rw [clean, Bool.not_eq_true', isMark] at hg
    rcases h c rfl with rfl | rfl <;> exact absurd hg (by decide)
  | group head words =>
    rcases h '(' rfl with heq | heq <;> exact absurd heq (by decide)

theorem ne_paren_of_clean {c : Char} (h : (char c).clean) : c ≠ '(' := by
  rintro rfl
  exact absurd h (by decide)

mutual

/-- **Glyphs can be taken apart in one way only**, up to where a word ends. -/
theorem renderAll_append_injective : (gs gs' : List Glyph) → cleanAll gs → cleanAll gs' →
    {r r' : List Char} → EndsWord r → EndsWord r' →
    renderAll gs ++ r = renderAll gs' ++ r' → gs = gs' ∧ r = r'
  | [], [], _, _, _, _, _, _, h => ⟨rfl, h⟩
  | [], g :: gs, _, hc', r, r', hr, _, h => by
    rw [cleanAll, Bool.and_eq_true] at hc'
    rw [renderAll, renderAll, List.nil_append, List.append_assoc] at h
    exact absurd (h ▸ hr) (not_endsWord_render hc'.1 _)
  | g :: gs, [], hc, _, r, r', _, hr', h => by
    rw [cleanAll, Bool.and_eq_true] at hc
    rw [renderAll, renderAll, List.nil_append, List.append_assoc] at h
    exact absurd (h ▸ hr') (not_endsWord_render hc.1 _)
  | g :: gs, g' :: gs', hc, hc', r, r', hr, hr', h => by
    rw [cleanAll, Bool.and_eq_true] at hc hc'
    rw [renderAll, renderAll, List.append_assoc, List.append_assoc] at h
    cases g with
    | char c =>
      cases g' with
      | char c' =>
        obtain ⟨rfl, hrest⟩ := List.cons.inj h
        obtain ⟨rfl, rfl⟩ := renderAll_append_injective gs gs' hc.2 hc'.2 hr hr' hrest
        exact ⟨rfl, rfl⟩
      | group head' words' => exact absurd (List.cons.inj h).1 (ne_paren_of_clean hc.1)
    | group head words =>
      cases g' with
      | char c' => exact absurd (List.cons.inj h).1.symm (ne_paren_of_clean hc'.1)
      | group head' words' =>
        have hinner := hc.1
        have hinner' := hc'.1
        rw [clean, Bool.and_eq_true] at hinner hinner'
        rw [render, render, List.cons_append, List.cons_append] at h
        have hrest := (List.cons.inj h).2
        rw [List.append_assoc, List.append_assoc, List.append_assoc, List.append_assoc] at hrest
        obtain ⟨rfl, hwords⟩ := renderAll_append_injective head head' hinner.1 hinner'.1
          (endsWord_renderWords words _) (endsWord_renderWords words' _) hrest
        obtain ⟨rfl, hmore⟩ := renderWords_append_injective words words' hinner.2 hinner'.2 hwords
        obtain ⟨rfl, rfl⟩ := renderAll_append_injective gs gs' hc.2 hc'.2 hr hr' hmore
        exact ⟨rfl, rfl⟩

/-- Words can be taken apart in one way only, up to where their group ends. -/
theorem renderWords_append_injective : (ws ws' : List (List Glyph)) → cleanWords ws →
    cleanWords ws' → {r r' : List Char} →
    renderWords ws ++ ')' :: r = renderWords ws' ++ ')' :: r' → ws = ws' ∧ r = r'
  | [], [], _, _, _, _, h => ⟨rfl, (List.cons.inj h).2⟩
  | [], _ :: _, _, _, _, _, h => absurd (List.cons.inj h).1 (by decide)
  | _ :: _, [], _, _, _, _, h => absurd (List.cons.inj h).1 (by decide)
  | w :: ws, w' :: ws', hc, hc', r, r', h => by
    rw [cleanWords, Bool.and_eq_true] at hc hc'
    rw [renderWords, renderWords, List.cons_append, List.cons_append] at h
    have hrest := (List.cons.inj h).2
    rw [List.append_assoc, List.append_assoc] at hrest
    obtain ⟨rfl, hwords⟩ := renderAll_append_injective w w' hc.1 hc'.1
      (endsWord_renderWords ws r) (endsWord_renderWords ws' r') hrest
    obtain ⟨rfl, rfl⟩ := renderWords_append_injective ws ws' hc.2 hc'.2 hwords
    exact ⟨rfl, rfl⟩

end

/-- **What is written with clean glyphs tells them.** -/
theorem renderAll_injective {gs gs' : List Glyph} (hc : cleanAll gs) (hc' : cleanAll gs')
    (h : renderAll gs = renderAll gs') : gs = gs' := by
  have hnil : EndsWord [] := by simp [EndsWord]
  have happend : renderAll gs ++ [] = renderAll gs' ++ [] := by rw [h]
  exact (renderAll_append_injective gs gs' hc hc' hnil hnil happend).1

end Glyph

end Form

end LoxForms
