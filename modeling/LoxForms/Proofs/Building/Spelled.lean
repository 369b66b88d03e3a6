import LoxForms.Program
/-!
# Spelling a program

The tokens that a program is made of, in reading order. A sign is what counts
of a token: a number counts by its value and a string by the text between its
quotes, and of all other tokens the kind and the characters count. Lines do not
count.

A method is spelled as a function without its `fun`. There is no spelling for a
`for` loop, which a program does not have any more.
-/

namespace LoxForms

/-- What counts of a token. -/
inductive Sign where
  | word (kind : TokenKind) (text : String)
  /-- A number, by its value; none is the value of a text that is no number. -/
  | number (value : Option Double)
  | string (text : String)
deriving DecidableEq

namespace Sign

/-- The sign of the tokens of a kind that are all alike. -/
def fixed (k : TokenKind) : Sign := .word k (.ofList (k.spelling?.getD []))

/-- The sign of a token, given its literal. -/
def ofToken (k : TokenKind) (text : String) (literal : Value) : Sign :=
  match k, literal with
  | .number, .float x => .number (some x)
  | .string, .text s => .string s
  | k, _ => .word k text

/-- A token that denotes nothing counts by its kind and its characters. -/
theorem ofToken_nil (k : TokenKind) (text : String) : ofToken k text .nil = .word k text := by
  cases k <;> rfl

end Sign

def Lexeme.sign (l : Lexeme) : Sign :=
  match l.kind with
  | .number => .number (Double.ofText? l.text)
  | .string => .string (.ofList l.text.toList.tail.dropLast)
  | k => .word k l.text

namespace Lexeme

variable {l : Lexeme}

theorem of_sign_word {k : TokenKind} {t : String} (h : l.sign = .word k t) :
    l.kind = k ∧ l.text = t := by
  unfold sign at h
  split at h
  · exact nomatch h
  · exact nomatch h
  · exact Sign.word.inj h

theorem of_sign_number {x : Option Double} (h : l.sign = .number x) :
    l.kind = .number ∧ Double.ofText? l.text = x := by
  unfold sign at h
  split at h
  · rename_i hk
    exact ⟨hk, Sign.number.inj h⟩
  · exact nomatch h
  · exact nomatch h

theorem of_sign_string {t : String} (h : l.sign = .string t) :
    l.kind = .string ∧ .ofList l.text.toList.tail.dropLast = t := by
  unfold sign at h
  split at h
  · exact nomatch h
  · rename_i hk
    exact ⟨hk, Sign.string.inj h⟩
  · exact nomatch h

end Lexeme

/-! ## Lexemes as tokens -/

/-- What the token of a lexeme denotes: a number its value, a string the text
between its quotes, and any other token nothing. -/
def Lexeme.Denotes (l : Lexeme) (denoted : Value) : Prop :=
  match l.kind with
  | .number => ∃ x, Double.ofText? l.text = some x ∧ denoted = .float x
  | .string => denoted = .text (.ofList l.text.toList.tail.dropLast)
  | _ => denoted = .nil

theorem TokenKind.eq_of_grammarName {j k : TokenKind} (h : ofName? k.grammarName = some j) :
    j = k := by
  have all_same : ∀ k ∈ all, (ofName? k.grammarName).all (· == k) := by decide +kernel
  have hk := all_same k k.mem_all
  rw [h] at hk
  exact eq_of_beq hk

/-- **A lexeme becomes a token of its kind**, if the kind has the same name in
the grammar, and a number if its text is one. -/
theorem Program.readLexeme_eq_ok {l : Lexeme} {v : Value} : readLexeme l = .ok v ↔
    TokenKind.ofName? l.kind.grammarName = some l.kind ∧
      ∃ denoted, l.Denotes denoted ∧ v = .token l.kind l.text denoted l.first.line := by
  unfold readLexeme Building.readToken Lexeme.Denotes
  cases hn : TokenKind.ofName? l.kind.grammarName with
  | none => simp
  | some k =>
    obtain rfl := TokenKind.eq_of_grammarName hn
    cases hk : l.kind <;> simp [eq_comm]
    cases Double.ofText? l.text <;> simp [eq_comm]

/-- A lexeme whose kind has the same name in the grammar becomes a token of that
kind. Only numbers and strings denote something. -/
theorem Program.readLexeme_of_kind {l : Lexeme} {k : TokenKind} (hl : l.kind = k)
    (hname : k.grammarName = k.name) (hnumber : k ≠ .number) (hstring : k ≠ .string) :
    readLexeme l = .ok (.token k l.text .nil l.first.line) := by
  subst hl
  refine readLexeme_eq_ok.mpr ⟨by rw [hname, TokenKind.ofName?_name], .nil, ?_, rfl⟩
  unfold Lexeme.Denotes
  split
  · exact absurd ‹_› hnumber
  · exact absurd ‹_› hstring
  · rfl

theorem Lexeme.sign_of_denotes {l : Lexeme} {denoted : Value} (h : l.Denotes denoted) :
    l.sign = .ofToken l.kind l.text denoted := by
  unfold Denotes at h
  unfold sign Sign.ofToken
  split at h
  · rename_i hk
    obtain ⟨x, hx, rfl⟩ := h
    simp only [hk, hx]
  · rename_i hk
    subst h
    simp only [hk]
  · subst h
    cases l.kind <;> rfl

namespace Value

open Sign

/-- The spelling of a part that may be missing. -/
def given (part : Value) (signs : List Sign) : List Sign :=
  match part with
  | .nil => []
  | _ => signs

/-- A function, from its name on. -/
def functionSigns (name params body : List Sign) : List Sign :=
  name ++ [fixed .leftParen] ++ params ++ [fixed .rightParen, fixed .leftBrace] ++ body ++
    [fixed .rightBrace]

mutual

/-- The signs of a program's statements and expressions, and of their names. -/
def spell : Value → List Sign
  | .token k lexeme denoted _ => [ofToken k lexeme denoted]
  | .literal .nil => [fixed .nilWord]
  | .literal (.bool true) => [fixed .trueWord]
  | .literal (.bool false) => [fixed .falseWord]
  | .literal (.float x) => [.number (some x)]
  | .literal (.text s) => [.string s]
  | .this => [fixed .thisWord]
  | .variableName name => spell name
  | .super method => [fixed .superWord, fixed .dot] ++ spell method
  | .grouping e => [fixed .leftParen] ++ spell e ++ [fixed .rightParen]
  | .unary operator right => spell operator ++ spell right
  | .binary left operator right | .logical left operator right =>
    spell left ++ spell operator ++ spell right
  | .call callee arguments =>
    spell callee ++ [fixed .leftParen] ++ spellListed arguments ++ [fixed .rightParen]
  | .get owner name => spell owner ++ [fixed .dot] ++ spell name
  | .set owner name value =>
    spell owner ++ [fixed .dot] ++ spell name ++ [fixed .equal] ++ spell value
  | .assign name value => spell name ++ [fixed .equal] ++ spell value
  | .expressionStatement e => spell e ++ [fixed .semicolon]
  | .print e => [fixed .printWord] ++ spell e ++ [fixed .semicolon]
  | .returnStatement e => [fixed .returnWord] ++ spell e ++ [fixed .semicolon]
  | .variableDeclaration name initializer =>
    [fixed .varWord] ++ spell name ++ given initializer ([fixed .equal] ++ spell initializer) ++
      [fixed .semicolon]
  | .block statements => [fixed .leftBrace] ++ spellBody statements ++ [fixed .rightBrace]
  | .ifStatement condition thenBranch elseBranch =>
    [fixed .ifWord, fixed .leftParen] ++ spell condition ++ [fixed .rightParen] ++
      spell thenBranch ++ given elseBranch ([fixed .elseWord] ++ spell elseBranch)
  | .whileStatement condition body =>
    [fixed .whileWord, fixed .leftParen] ++ spell condition ++ [fixed .rightParen] ++ spell body
  | .functionDeclaration name params body =>
    [fixed .funWord] ++ functionSigns (spell name) (spellListed params) (spellBody body)
  | .classDeclaration name superclass methods =>
    [fixed .classWord] ++ spell name ++ given superclass ([fixed .less] ++ spell superclass) ++
      [fixed .leftBrace] ++ spellMethods methods ++ [fixed .rightBrace]
  | _ => []

/-- The signs of a list with commas between its items. -/
def spellListed : Value → List Sign
  | .list [] => []
  | .list (v :: vs) => spell v ++ spellMore vs
  | _ => []

/-- The signs of the second and later items of a list. -/
def spellMore : List Value → List Sign
  | [] => []
  | v :: vs => [fixed .comma] ++ spell v ++ spellMore vs

/-- The signs of the statements between braces. -/
def spellBody : Value → List Sign
  | .list items => spellAll items
  | _ => []

/-- The signs of several values, one after the other. -/
def spellAll : List Value → List Sign
  | [] => []
  | v :: vs => spell v ++ spellAll vs

def spellMethods : Value → List Sign
  | .list items => spellEach items
  | _ => []

def spellEach : List Value → List Sign
  | [] => []
  | m :: ms => spellMethod m ++ spellEach ms

def spellMethod : Value → List Sign
  | .functionDeclaration name params body =>
    functionSigns (spell name) (spellListed params) (spellBody body)
  | _ => []

end

theorem given_of_ne {v : Value} (h : v ≠ .nil) (gs : List Sign) : given v gs = gs := by
  unfold given
  split
  · exact absurd rfl h
  · rfl

/-! ## Lists -/

theorem spellAll_append (us vs : List Value) :
    spellAll (us ++ vs) = spellAll us ++ spellAll vs := by
  induction us with
  | nil => rfl
  | cons u us ih => rw [List.cons_append, spellAll, spellAll, ih, List.append_assoc]

theorem spellMore_append (us vs : List Value) :
    spellMore (us ++ vs) = spellMore us ++ spellMore vs := by
  induction us with
  | nil => rfl
  | cons u us ih => rw [List.cons_append, spellMore, spellMore, ih, List.append_assoc, List.append_assoc,
      List.append_assoc]

theorem spellEach_append (us vs : List Value) :
    spellEach (us ++ vs) = spellEach us ++ spellEach vs := by
  induction us with
  | nil => rfl
  | cons u us ih => rw [List.cons_append, spellEach, spellEach, ih, List.append_assoc]

theorem spellAll_singleton (v : Value) : spellAll [v] = spell v := by
  simp [spellAll]

theorem spellMore_singleton (v : Value) : spellMore [v] = fixed .comma :: spell v := by
  simp [spellMore]

theorem spellEach_singleton (v : Value) : spellEach [v] = spellMethod v := by
  simp [spellEach]

end Value

end LoxForms
