import LoxForms.Proofs.Building.Spelled
import LoxForms.Proofs.Lexeme.Spelling
/-!
# Normal form

The programs that can be written down as they are, without adding a
parenthesis. Operands hold together at least as tightly as their operators ask
(`Value.tightness`), a branch that is followed by an `else` does not end in an
`if` that could take it (`Value.endsOpen`), and there is nothing in a program
that could not be written at all.

What a program in normal form is written with is not settled by the program: a
number can be written in several ways. `Writes` allows all of them, and
`exists_writes` says that there is one.
-/

namespace LoxForms

/-- How tightly a binary operator binds, and 0 for a kind that is none. -/
def TokenKind.strength : TokenKind → Nat
  | orWord => 1
  | andWord => 2
  | bangEqual | equalEqual => 3
  | greater | greaterEqual | less | lessEqual => 4
  | minus | plus => 5
  | slash | star => 6
  | _ => 0

namespace Value

/-- How tightly an expression holds together: as its operator binds, and more
tightly than any of them if it is a call, a property or a single word or is in
parentheses. -/
def tightness : Value → Nat
  | assign .. | set .. => 0
  | logical _ (token k _ _ _) _ | binary _ (token k _ _ _) _ => k.strength
  | unary .. => 7
  | _ => 8

/-- A token of a kind with a spelling. -/
def IsOperator (k : TokenKind) (v : Value) : Prop :=
  ∃ line, v = token k (.ofList (k.spelling?.getD [])) nil line

/-- A token for a name. -/
def IsName (v : Value) : Prop :=
  ∃ lexeme line, Lexeme.Spells .identifier lexeme.toList ∧ v = token .identifier lexeme nil line

/-- The values that a literal can have. -/
inductive IsDenoted : Value → Prop
  | nil : IsDenoted nil
  | bool (b : Bool) : IsDenoted (bool b)
  /-- The value of some numeral. -/
  | float {lexeme : String} {x : Double} :
      Lexeme.IsNumber lexeme.toList → Double.ofText? lexeme = some x → IsDenoted (float x)
  | text {s : String} : '"' ∉ s.toList → IsDenoted (text s)

/-- Expressions in normal form. -/
inductive NormalExpression : Value → Prop
  | literal {v : Value} : IsDenoted v → NormalExpression (literal v)
  | this : NormalExpression this
  | variableName {name : Value} : IsName name → NormalExpression (variableName name)
  | super {method : Value} : IsName method → NormalExpression (super method)
  | grouping {e : Value} : NormalExpression e → NormalExpression (grouping e)
  | unary {k : TokenKind} {operator right : Value} :
      k ∈ [.bang, .minus] → IsOperator k operator → NormalExpression right →
      7 ≤ right.tightness → NormalExpression (unary operator right)
  | binary {k : TokenKind} {left operator right : Value} :
      3 ≤ k.strength → IsOperator k operator → NormalExpression left → NormalExpression right →
      k.strength ≤ left.tightness → k.strength < right.tightness →
      NormalExpression (binary left operator right)
  | logical {k : TokenKind} {left operator right : Value} :
      k ∈ [.orWord, .andWord] → IsOperator k operator → NormalExpression left →
      NormalExpression right → k.strength ≤ left.tightness → k.strength < right.tightness →
      NormalExpression (logical left operator right)
  | call {callee : Value} {arguments : List Value} :
      NormalExpression callee → 8 ≤ callee.tightness → arguments.length ≤ argumentLimit →
      (∀ e ∈ arguments, NormalExpression e) → NormalExpression (call callee (list arguments))
  | get {owner name : Value} :
      NormalExpression owner → 8 ≤ owner.tightness → IsName name →
      NormalExpression (get owner name)
  | set {owner name value : Value} :
      NormalExpression owner → 8 ≤ owner.tightness → IsName name → NormalExpression value →
      NormalExpression (set owner name value)
  | assign {name value : Value} :
      IsName name → NormalExpression value → NormalExpression (assign name value)

def isDeclaration : Value → Bool
  | variableDeclaration .. | functionDeclaration .. | classDeclaration .. => true
  | _ => false

/-- Whether a statement ends in an `if` that could take an `else`. -/
def endsOpen : Value → Bool
  | ifStatement _ _ nil => true
  | ifStatement _ _ elseBranch => endsOpen elseBranch
  | whileStatement _ body => endsOpen body
  | _ => false

theorem endsOpen_ifStatement {condition thenBranch elseBranch : Value} (h : elseBranch ≠ nil) :
    (ifStatement condition thenBranch elseBranch).endsOpen = elseBranch.endsOpen := by
  cases elseBranch <;> first | rfl | contradiction

/-- Statements in normal form. -/
inductive NormalStatement : Value → Prop
  | expressionStatement {e : Value} : NormalExpression e → NormalStatement (expressionStatement e)
  | print {e : Value} : NormalExpression e → NormalStatement (print e)
  | returnStatement {e : Value} :
      e = nil ∨ NormalExpression e → NormalStatement (returnStatement e)
  | variableDeclaration {name initializer : Value} :
      IsName name → initializer = nil ∨ NormalExpression initializer →
      NormalStatement (variableDeclaration name initializer)
  | block {statements : List Value} :
      (∀ s ∈ statements, NormalStatement s) → NormalStatement (block (list statements))
  | ifStatement {condition thenBranch : Value} :
      NormalExpression condition → NormalStatement thenBranch → ¬ thenBranch.isDeclaration →
      NormalStatement (ifStatement condition thenBranch nil)
  | ifElseStatement {condition thenBranch elseBranch : Value} :
      NormalExpression condition → NormalStatement thenBranch → ¬ thenBranch.isDeclaration →
      ¬ thenBranch.endsOpen → NormalStatement elseBranch → ¬ elseBranch.isDeclaration →
      NormalStatement (ifStatement condition thenBranch elseBranch)
  | whileStatement {condition body : Value} :
      NormalExpression condition → NormalStatement body → ¬ body.isDeclaration →
      NormalStatement (whileStatement condition body)
  | functionDeclaration {name : Value} {params body : List Value} :
      IsName name → params.length ≤ argumentLimit → (∀ p ∈ params, IsName p) →
      (∀ s ∈ body, NormalStatement s) →
      NormalStatement (functionDeclaration name (list params) (list body))
  | classDeclaration {name base : Value} {methods : List Value} :
      IsName name → (base = nil ∨ ∃ b, IsName b ∧ base = variableName b) →
      (∀ m ∈ methods, NormalStatement m) →
      (∀ m ∈ methods, ∃ name params body, m = functionDeclaration name params body) →
      NormalStatement (classDeclaration name base (list methods))

/-! ## Writing a program -/

/-- Lexemes that a program can be written with. -/
def Writes (w : List Lexeme) (statements : List Value) : Prop :=
  (∀ l ∈ w, Lexeme.Spells l.kind l.text.toList) ∧ w.map Lexeme.sign = spellAll statements

end Value

namespace Sign

/-- To be what counts of some lexeme. -/
def IsWritten (g : Sign) : Prop :=
  ∃ l : Lexeme, Lexeme.Spells l.kind l.text.toList ∧ l.sign = g

def AllWritten (gs : List Sign) : Prop := ∀ g ∈ gs, g.IsWritten

variable {g : Sign} {gs hs : List Sign} {k : TokenKind}

@[simp] theorem allWritten_nil : AllWritten [] := List.forall_mem_nil _

@[simp] theorem allWritten_cons : AllWritten (g :: gs) ↔ g.IsWritten ∧ AllWritten gs :=
  List.forall_mem_cons

@[simp] theorem allWritten_append : AllWritten (gs ++ hs) ↔ AllWritten gs ∧ AllWritten hs :=
  List.forall_mem_append

@[simp] theorem isWritten_fixed : (fixed k).IsWritten ↔ k.spelling? ≠ none := by
  constructor
  · rintro ⟨l, hspells, hl⟩ hk
    rw [fixed, hk] at hl
    refine hspells.ne_nil ?_
    rw [(Lexeme.of_sign_word hl).2]
    rfl
  · intro hk
    obtain ⟨t, ht⟩ := Option.ne_none_iff_exists'.mp hk
    refine ⟨⟨k, .ofList t, .start, .start⟩, .inl ?_, ?_⟩
    · rw [String.toList_ofList, ht]
    · rw [fixed, ht, Option.getD_some]
      cases k <;> first | rfl | exact absurd rfl hk

end Sign

namespace Value

open Sign

variable {v : Value} {vs : List Value} {k : TokenKind}

theorem IsOperator.allWritten (h : IsOperator k v) (hk : k.spelling? ≠ none) :
    AllWritten (spell v) := by
  obtain ⟨line, rfl⟩ := h
  have hsign : ofToken k (.ofList (k.spelling?.getD [])) nil = fixed k := ofToken_nil k _
  simp [spell, hsign, hk]

theorem IsName.allWritten (h : IsName v) : AllWritten (spell v) := by
  obtain ⟨lexeme, line, hspells, rfl⟩ := h
  rw [spell, allWritten_cons]
  exact ⟨⟨⟨.identifier, lexeme, .start, .start⟩, hspells, rfl⟩, allWritten_nil⟩

theorem IsDenoted.allWritten (h : IsDenoted v) : AllWritten (spell (literal v)) := by
  cases h with
  | nil => simp [spell, TokenKind.spelling?]
  | bool b => cases b <;> simp [spell, TokenKind.spelling?]
  | @float lexeme x hnumber hx =>
    rw [spell, allWritten_cons, ← hx]
    exact ⟨⟨⟨.number, lexeme, .start, .start⟩, .inr (.inr (.inl ⟨rfl, hnumber⟩)), rfl⟩,
      allWritten_nil⟩
  | @text s hs =>
    rw [spell, allWritten_cons]
    refine ⟨⟨⟨.string, .ofList ('"' :: (s.toList ++ ['"'])), .start, .start⟩,
      .inr (.inr (.inr ⟨rfl, s.toList, hs, String.toList_ofList⟩)), ?_⟩, allWritten_nil⟩
    simp [Lexeme.sign]

theorem allWritten_spellMore (h : ∀ v ∈ vs, AllWritten (spell v)) :
    AllWritten (spellMore vs) := by
  induction vs with
  | nil => simp [spellMore]
  | cons v vs ih =>
    rw [List.forall_mem_cons] at h
    simp [spellMore, TokenKind.spelling?, h.1, ih h.2]

theorem allWritten_spellListed (h : ∀ v ∈ vs, AllWritten (spell v)) :
    AllWritten (spellListed (list vs)) := by
  cases vs with
  | nil => simp [spellListed]
  | cons v vs =>
    rw [List.forall_mem_cons] at h
    simp [spellListed, h.1, allWritten_spellMore h.2]

theorem allWritten_spellAll (h : ∀ v ∈ vs, AllWritten (spell v)) : AllWritten (spellAll vs) := by
  induction vs with
  | nil => simp [spellAll]
  | cons v vs ih =>
    rw [List.forall_mem_cons] at h
    simp [spellAll, h.1, ih h.2]

/-- A method is written as a function is, but for one word less. -/
theorem allWritten_spellEach (h : ∀ v ∈ vs, AllWritten (spell v))
    (hmethods : ∀ m ∈ vs, ∃ name params body, m = functionDeclaration name params body) :
    AllWritten (spellEach vs) := by
  induction vs with
  | nil => simp [spellEach]
  | cons v vs ih =>
    rw [List.forall_mem_cons] at h hmethods
    obtain ⟨⟨name, params, body, rfl⟩, hmethods⟩ := hmethods
    have hfunction := h.1
    rw [spell, allWritten_append] at hfunction
    simp [spellEach, spellMethod, hfunction.2, ih h.2 hmethods]

/-- A part that may be missing is written if it is there. -/
theorem allWritten_given {gs : List Sign} (h : v ≠ nil → AllWritten gs) :
    AllWritten (given v gs) := by
  unfold given
  split
  · exact allWritten_nil
  · exact h ‹_›

theorem NormalExpression.allWritten (h : NormalExpression v) : AllWritten (spell v) := by
  induction h with
  | literal h => exact h.allWritten
  | this => simp [spell, TokenKind.spelling?]
  | variableName hname => exact hname.allWritten
  | super hname => simp [spell, TokenKind.spelling?, hname.allWritten]
  | grouping _ ih => simp [spell, TokenKind.spelling?, ih]
  | @unary k _ _ hk ho _ _ ih =>
    have hspelled : k.spelling? ≠ none := by
      simp only [List.mem_cons, List.not_mem_nil, or_false] at hk
      rcases hk with rfl | rfl <;> simp [TokenKind.spelling?]
    simp [spell, ho.allWritten hspelled, ih]
  | @binary k _ _ _ hk ho _ _ _ _ ihl ihr =>
    have hspelled : k.spelling? ≠ none := by
      cases k <;> first | (exact absurd hk (by decide)) | simp [TokenKind.spelling?]
    simp [spell, ho.allWritten hspelled, ihl, ihr]
  | @logical k _ _ _ hk ho _ _ _ _ ihl ihr =>
    have hspelled : k.spelling? ≠ none := by
      simp only [List.mem_cons, List.not_mem_nil, or_false] at hk
      rcases hk with rfl | rfl <;> simp [TokenKind.spelling?]
    simp [spell, ho.allWritten hspelled, ihl, ihr]
  | call _ _ _ _ ih ihargs => simp [spell, TokenKind.spelling?, ih, allWritten_spellListed ihargs]
  | get _ _ hname ih => simp [spell, TokenKind.spelling?, ih, hname.allWritten]
  | set _ _ hname _ ih ihv => simp [spell, TokenKind.spelling?, ih, hname.allWritten, ihv]
  | assign hname _ ih => simp [spell, TokenKind.spelling?, hname.allWritten, ih]

theorem NormalStatement.allWritten (h : NormalStatement v) : AllWritten (spell v) := by
  induction h with
  | expressionStatement he | print he => simp [spell, TokenKind.spelling?, he.allWritten]
  | returnStatement he =>
    rcases he with rfl | he
    · simp [spell, TokenKind.spelling?]
    · simp [spell, TokenKind.spelling?, he.allWritten]
  | @variableDeclaration _ initializer hname he =>
    have hinitializer : AllWritten (given initializer ([fixed .equal] ++ spell initializer)) :=
      allWritten_given fun hne => by simp [TokenKind.spelling?, (he.resolve_left hne).allWritten]
    simpa [spell, TokenKind.spelling?, hname.allWritten] using hinitializer
  | block _ ih => simp [spell, spellBody, TokenKind.spelling?, allWritten_spellAll ih]
  | ifStatement hcondition _ _ ih =>
    simp [spell, given, TokenKind.spelling?, hcondition.allWritten, ih]
  | @ifElseStatement _ _ elseBranch hcondition _ _ _ _ _ iht ihe =>
    have helse : AllWritten (given elseBranch ([fixed .elseWord] ++ spell elseBranch)) :=
      allWritten_given fun _ => by simp [TokenKind.spelling?, ihe]
    simpa [spell, TokenKind.spelling?, hcondition.allWritten, iht] using helse
  | whileStatement hcondition _ _ ih =>
    simp [spell, TokenKind.spelling?, hcondition.allWritten, ih]
  | functionDeclaration hname _ hparams _ ih =>
    have hlisted := allWritten_spellListed fun p hp => (hparams p hp).allWritten
    simp [spell, functionSigns, spellBody, TokenKind.spelling?, hname.allWritten, hlisted,
      allWritten_spellAll ih]
  | @classDeclaration _ base _ hname hbase _ hmethods ih =>
    have hsuperclass : AllWritten (given base ([fixed .less] ++ spell base)) := by
      refine allWritten_given fun hne => ?_
      obtain ⟨b, hb, rfl⟩ := hbase.resolve_left hne
      simp [spell, TokenKind.spelling?, hb.allWritten]
    have heach := allWritten_spellEach ih hmethods
    simpa [spell, spellMethods, TokenKind.spelling?, hname.allWritten, heach] using hsuperclass

/-- **There is always a way to write a program in normal form.** -/
theorem exists_writes {statements : List Value} (h : ∀ s ∈ statements, NormalStatement s) :
    ∃ w, Writes w statements := by
  have hwritten := allWritten_spellAll fun s hs => (h s hs).allWritten
  suffices ∀ gs, AllWritten gs →
      ∃ w : List Lexeme, (∀ l ∈ w, Lexeme.Spells l.kind l.text.toList) ∧ w.map Lexeme.sign = gs from
    this _ hwritten
  intro gs hgs
  induction gs with
  | nil => exact ⟨[], List.forall_mem_nil _, rfl⟩
  | cons g gs ih =>
    obtain ⟨⟨l, hl, rfl⟩, hrest⟩ := allWritten_cons.mp hgs
    obtain ⟨w, hw, rfl⟩ := ih hrest
    exact ⟨l :: w, List.forall_mem_cons.mpr ⟨hl, hw⟩, rfl⟩

end Value

end LoxForms
