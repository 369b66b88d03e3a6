import LoxForms.Grammar
/-!
# The grammar as it is written

`Grammar.productions` is an expanded grammar: an optional phrase makes two
productions of one, and a repetition becomes a phrase of its own, with a
production for its first element and one for each further element. Here the
rules stand as one writes them, with optional parts, repetitions and
alternatives in place. `mem_productions_iff` says that expanding them gives the
productions, all of them and no others.
-/

namespace LoxForms

/-- A piece of the right side of a rule. -/
inductive Piece where
  /-- One of these symbols. -/
  | one (choices : List Slot)
  /-- All of these symbols, or none of them, which leaves an absent child. -/
  | optional (slots : List Slot)
  /-- Any number of rows, each of them one of these. The expanded grammar has
  the phrase `list` for one row or more. -/
  | star (list : Nonterminal) (rows : List (List Slot))
deriving DecidableEq

/-- One of the ways to make a phrase. -/
structure Alternative where
  label : Label
  /-- Whether a single child stands for itself. -/
  transparent : Bool
  pieces : List Piece
deriving DecidableEq

/-! ## What a right side reads -/

/-- A piece in one of its forms. -/
inductive Piece.Matches : Piece → List Slot → Prop
  | one {choices : List Slot} {s : Slot} : s ∈ choices → Matches (.one choices) [s]
  | present {slots : List Slot} : Matches (.optional slots) slots
  | absent {slots : List Slot} : Matches (.optional slots) [.absent]
  | star {list : Nonterminal} {rows chosen : List (List Slot)} :
      (∀ row ∈ chosen, row ∈ rows) → Matches (.star list rows) chosen.flatten

/-- A right side, each piece of it in one of its forms. -/
inductive Matches : List Piece → List Slot → Prop
  | nil : Matches [] []
  | cons {piece : Piece} {pieces : List Piece} {slots rest : List Slot} :
      piece.Matches slots → Matches pieces rest → Matches (piece :: pieces) (slots ++ rest)

/-! ## The rules -/

namespace Grammar

open Slot Piece

/-- A token that becomes a leaf. -/
def kept (k : TokenKind) : Piece := one [keep k]

/-- A token that the tree does without. -/
def dropped (k : TokenKind) : Piece := one [drop k]

def a (n : Nonterminal) : Piece := one [phrase n]

/-- An alternative that always gives a node. -/
def always (r : Rule) (pieces : List Piece) : Alternative := ⟨.rule r, false, pieces⟩

/-- The alternatives of a phrase that is one of several others. -/
def anyOf (name : String) (ns : List Nonterminal) : List Alternative :=
  ns.map fun n => ⟨.other name, true, [a n]⟩

/-- Operands with operators of one level between them. -/
def chain (r : Rule) (operand tail : Nonterminal) (operators : List TokenKind) :
    List Alternative :=
  [⟨.rule r, true, [a operand, star tail (operators.map fun k => [keep k, phrase operand])]⟩]

/-- The rules. A phrase that stands for a repetition has none of its own. -/
def written : Nonterminal → List Alternative
  | .program => [always .start [star .declarations [[phrase .declaration]]]]
  | .declaration => anyOf "declaration" [.classDecl, .funDecl, .varDecl, .statement]
  | .classDecl =>
    [always .classDecl [dropped .classWord, kept .identifier, optional [phrase .superclass],
      dropped .leftBrace, star .methods [[phrase .function]], dropped .rightBrace]]
  | .superclass => [always .superclass [dropped .less, kept .identifier]]
  | .funDecl => [⟨.other "fun_decl", true, [dropped .funWord, a .function]⟩]
  | .function =>
    [always .function [kept .identifier, dropped .leftParen, optional [phrase .parameters],
      dropped .rightParen, a .block]]
  | .parameters =>
    [always .parameters
      [kept .identifier, star .moreParameters [[drop .comma, keep .identifier]]]]
  | .varDecl =>
    [always .varDecl [dropped .varWord, kept .identifier,
      optional [drop .equal, phrase .expression], dropped .semicolon]]
  | .statement =>
    anyOf "statement"
      [.exprStmt, .forStmt, .ifStmt, .printStmt, .returnStmt, .whileStmt, .block]
  | .exprStmt => [always .exprStmt [a .expression, dropped .semicolon]]
  | .forStmt =>
    [always .forStmt [dropped .forWord, dropped .leftParen, a .forInitializer,
      optional [phrase .expression], dropped .semicolon, optional [phrase .expression],
      dropped .rightParen, a .statement]]
  | .forInitializer =>
    [always .forInitializer [a .varDecl], always .forInitializer [a .exprStmt],
     always .forInitializer [dropped .semicolon]]
  | .ifStmt =>
    [always .ifStmt [dropped .ifWord, dropped .leftParen, a .expression, dropped .rightParen,
      a .statement, optional [drop .elseWord, phrase .statement]]]
  | .printStmt => [always .printStmt [dropped .printWord, a .expression, dropped .semicolon]]
  | .returnStmt =>
    [always .returnStmt
      [dropped .returnWord, optional [phrase .expression], dropped .semicolon]]
  | .whileStmt =>
    [always .whileStmt [dropped .whileWord, dropped .leftParen, a .expression,
      dropped .rightParen, a .statement]]
  | .block =>
    [always .block
      [dropped .leftBrace, star .declarations [[phrase .declaration]], dropped .rightBrace]]
  | .expression => anyOf "expression" [.assignment]
  | .assignment =>
    always .assign [a .logicOr, dropped .equal, a .assignment] :: anyOf "assignment" [.logicOr]
  | .logicOr => chain .logicOr .logicAnd .orTail [.orWord]
  | .logicAnd => chain .logicAnd .equality .andTail [.andWord]
  | .equality => chain .equality .comparison .equalityTail [.bangEqual, .equalEqual]
  | .comparison =>
    chain .comparison .term .comparisonTail [.greater, .greaterEqual, .less, .lessEqual]
  | .term => chain .term .factor .termTail [.minus, .plus]
  | .factor => chain .factor .unary .factorTail [.slash, .star]
  | .unary =>
    [always .unary [one [keep .bang, keep .minus], a .unary],
     ⟨.rule .unary, true, [a .callChain]⟩]
  | .callChain =>
    anyOf "call_chain" [.primary] ++
    [always .call [a .callChain, dropped .leftParen, optional [phrase .arguments],
      dropped .rightParen],
     always .get [a .callChain, dropped .dot, kept .identifier]]
  | .arguments =>
    [always .arguments [a .expression, star .moreArguments [[drop .comma, phrase .expression]]]]
  | .primary =>
    [always .trueLiteral [dropped .trueWord], always .falseLiteral [dropped .falseWord],
     always .nilLiteral [dropped .nilWord], always .thisWord [dropped .thisWord],
     always .number [kept .number], always .string [kept .string],
     always .variableName [kept .identifier],
     always .grouping [dropped .leftParen, a .expression, dropped .rightParen],
     always .superExpr [dropped .superWord, dropped .dot, kept .identifier]]
  | .declarations | .methods | .moreParameters | .moreArguments | .orTail | .andTail
  | .equalityTail | .comparisonTail | .termTail | .factorTail => []

/-- The rows that a phrase repeats, if it stands for a repetition. -/
def Repeats (list : Nonterminal) (rows : List (List Slot)) : Prop :=
  ∃ n, ∃ alternative ∈ written n, star list rows ∈ alternative.pieces

end Grammar

/-! ## Expansion -/

/-- The forms of a piece, with a phrase for the rows of a repetition. -/
def Piece.expand : Piece → List (List Slot)
  | one choices => choices.map ([·])
  | optional slots => [slots, [.absent]]
  | star list _ => [[.phrase list], []]

def expandAll : List Piece → List (List Slot)
  | [] => [[]]
  | piece :: pieces => piece.expand.flatMap fun slots => (expandAll pieces).map (slots ++ ·)

def Alternative.shape (alternative : Alternative) : Shape :=
  if alternative.transparent then .nodeUnlessSingle alternative.label
  else .node alternative.label

/-- The productions of the phrase that a repetition becomes. -/
def Piece.listProductions : Piece → List Production
  | star list rows =>
    rows.map (⟨list, ·, .splice⟩) ++ rows.map fun row => ⟨list, .phrase list :: row, .splice⟩
  | _ => []

def Alternative.productions (n : Nonterminal) (alternative : Alternative) : List Production :=
  (expandAll alternative.pieces).map (⟨n, ·, alternative.shape⟩) ++
    alternative.pieces.flatMap Piece.listProductions

namespace Grammar

/-- The productions of all rules. Two repetitions of the same rows share a
phrase, so its productions stand here twice. -/
def expanded : List Production :=
  Nonterminal.all.flatMap fun n => (written n).flatMap (Alternative.productions n)

theorem eraseDups_expanded : expanded.eraseDups = productions.toList := by decide +kernel

/-- **The productions are those of the rules.** A production is one of the
forms of an alternative, or it makes the first or a further row of a
repetition. -/
theorem mem_productions_iff {p : Production} :
    p ∈ productions ↔
      (∃ alternative ∈ written p.phrase,
        p.slots ∈ expandAll alternative.pieces ∧ p.shape = alternative.shape) ∨
      (∃ rows, Repeats p.phrase rows ∧ p.shape = .splice ∧
        ∃ row ∈ rows, p.slots = row ∨ p.slots = .phrase p.phrase :: row) := by
  rw [← Array.mem_toList_iff, ← eraseDups_expanded, List.mem_eraseDups]
  simp only [expanded, Alternative.productions, Repeats, List.mem_flatMap, List.mem_append,
    List.mem_map]
  constructor
  · rintro ⟨n, -, alternative, ha, ⟨slots, hs, rfl⟩ | ⟨piece, hp, hl⟩⟩
    · exact .inl ⟨alternative, ha, hs, rfl⟩
    · cases piece with
      | one | optional => simp [Piece.listProductions] at hl
      | star list rows =>
        simp only [Piece.listProductions, List.mem_append, List.mem_map] at hl
        rcases hl with ⟨row, hr, rfl⟩ | ⟨row, hr, rfl⟩
        · exact .inr ⟨rows, ⟨n, alternative, ha, hp⟩, rfl, row, hr, .inl rfl⟩
        · exact .inr ⟨rows, ⟨n, alternative, ha, hp⟩, rfl, row, hr, .inr rfl⟩
  · obtain ⟨list, slots, shape⟩ := p
    rintro (⟨alternative, ha, hs, rfl⟩ | ⟨rows, ⟨n, alternative, ha, hp⟩, rfl, row, hr, hs⟩)
    · exact ⟨list, Nonterminal.mem_all list, alternative, ha, .inl ⟨slots, hs, rfl⟩⟩
    · refine ⟨n, Nonterminal.mem_all n, alternative, ha, .inr ⟨_, hp, ?_⟩⟩
      simp only [Piece.listProductions, List.mem_append, List.mem_map]
      rcases hs with hs | hs
      · exact .inl ⟨row, hr, by rw [← hs]⟩
      · exact .inr ⟨row, hr, by rw [← hs]⟩

end Grammar

end LoxForms
