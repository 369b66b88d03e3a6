import LoxForms.Grammar
/-!
# The automaton's table

One row for each of the 191 states of the grammar's automaton, in the order in
which they are first reached. Above each row stand the productions that are
being read there, with a bullet between what has been read of them and what is
to come. A row holds the tokens that can be read next with the states that
they lead to, the phrases that can be finished next with theirs, and the
production that is complete there, if one is.

State 0 is where a text begins, and state `accepting` is where it can end.
-/

namespace LoxForms

namespace Automaton

structure State where
  /-- The tokens that can be read here, and the states that they lead to. -/
  shifts : List (TokenKind × Nat)
  /-- The phrases that can be finished here, and the states that they lead to. -/
  gotos : List (Nonterminal × Nat)
  /-- The production that is complete here. -/
  complete : Option Nat
deriving Repr

/-- The state in which a whole program has been read. -/
def accepting : Nat := 45

/-! ## What many rows share -/

/-- What an expression can begin with. -/
def operandShifts : List (TokenKind × Nat) :=
  [(.bang, 32), (.minus, 33), (.trueWord, 36), (.falseWord, 37), (.nilWord, 38),
   (.thisWord, 39), (.number, 40), (.string, 41), (.identifier, 42), (.leftParen, 43),
   (.superWord, 44)]

/-- What a statement can begin with. -/
def statementShifts : List (TokenKind × Nat) :=
  [(TokenKind.forWord, 18), (.ifWord, 19), (.printWord, 20), (.returnWord, 21), (.whileWord, 22),
   (.leftBrace, 23)] ++ operandShifts

/-- What a declaration can begin with. -/
def declarationShifts : List (TokenKind × Nat) :=
  [(TokenKind.classWord, 7), (.funWord, 8), (.varWord, 9)] ++ statementShifts

/-- Where the parts of an operand lead, when the operand itself leads elsewhere. -/
def callGotos : List (Nonterminal × Nat) :=
  [(.callChain, 34), (.primary, 35)]

def unaryGotos : List (Nonterminal × Nat) :=
  (.unary, 31) :: callGotos

def factorGotos : List (Nonterminal × Nat) :=
  (.factor, 30) :: unaryGotos

def termGotos : List (Nonterminal × Nat) :=
  (.term, 29) :: factorGotos

def comparisonGotos : List (Nonterminal × Nat) :=
  (.comparison, 28) :: termGotos

def equalityGotos : List (Nonterminal × Nat) :=
  (.equality, 27) :: comparisonGotos

def andGotos : List (Nonterminal × Nat) :=
  (.logicAnd, 26) :: equalityGotos

def orGotos : List (Nonterminal × Nat) :=
  (.logicOr, 25) :: andGotos

def assignmentGotos : List (Nonterminal × Nat) :=
  (.assignment, 24) :: orGotos

def statementGotos : List (Nonterminal × Nat) :=
  [(Nonterminal.exprStmt, 10), (.forStmt, 11), (.ifStmt, 12), (.printStmt, 13), (.returnStmt, 14),
   (.whileStmt, 15), (.block, 16), (.expression, 17)] ++ assignmentGotos

def declarationGotos : List (Nonterminal × Nat) :=
  [(Nonterminal.classDecl, 3), (.funDecl, 4), (.varDecl, 5), (.statement, 6)] ++ statementGotos

/-! ## The rows -/

@[irreducible] def states : Array State :=
  #[
   -- 0: text → • program
   ⟨declarationShifts,
     [(Nonterminal.declarations, 1), (.declaration, 2), (.program, 45)] ++ declarationGotos,
     some 1⟩,
   -- 1: program → declarations •
   --    declarations → declarations • declaration
   ⟨declarationShifts, (.declaration, 46) :: declarationGotos, some 0⟩,
   -- 2: declarations → declaration •
   ⟨[], [], some 2⟩,
   -- 3: declaration → classDecl •
   ⟨[], [], some 4⟩,
   -- 4: declaration → funDecl •
   ⟨[], [], some 5⟩,
   -- 5: declaration → varDecl •
   ⟨[], [], some 6⟩,
   -- 6: declaration → statement •
   ⟨[], [], some 7⟩,
   -- 7: classDecl → classWord • identifier superclass leftBrace methods rightBrace
   --    classDecl → classWord • identifier superclass leftBrace rightBrace
   --    classDecl → classWord • identifier leftBrace methods rightBrace
   --    classDecl → classWord • identifier leftBrace rightBrace
   ⟨[(.identifier, 47)], [], none⟩,
   -- 8: funDecl → funWord • function
   ⟨[(.identifier, 49)], [(.function, 48)], none⟩,
   -- 9: varDecl → varWord • identifier equal expression semicolon
   --    varDecl → varWord • identifier semicolon
   ⟨[(.identifier, 50)], [], none⟩,
   -- 10: statement → exprStmt •
   ⟨[], [], some 24⟩,
   -- 11: statement → forStmt •
   ⟨[], [], some 25⟩,
   -- 12: statement → ifStmt •
   ⟨[], [], some 26⟩,
   -- 13: statement → printStmt •
   ⟨[], [], some 27⟩,
   -- 14: statement → returnStmt •
   ⟨[], [], some 28⟩,
   -- 15: statement → whileStmt •
   ⟨[], [], some 29⟩,
   -- 16: statement → block •
   ⟨[], [], some 30⟩,
   -- 17: exprStmt → expression • semicolon
   ⟨[(.semicolon, 51)], [], none⟩,
   -- 18: forStmt → forWord • leftParen forInitializer expression semicolon expression rightParen
   --      statement
   --    forStmt → forWord • leftParen forInitializer expression semicolon rightParen statement
   --    forStmt → forWord • leftParen forInitializer semicolon expression rightParen statement
   --    forStmt → forWord • leftParen forInitializer semicolon rightParen statement
   ⟨[(.leftParen, 52)], [], none⟩,
   -- 19: ifStmt → ifWord • leftParen expression rightParen statement elseWord statement
   --    ifStmt → ifWord • leftParen expression rightParen statement
   ⟨[(.leftParen, 53)], [], none⟩,
   -- 20: printStmt → printWord • expression semicolon
   ⟨operandShifts, (.expression, 54) :: assignmentGotos, none⟩,
   -- 21: returnStmt → returnWord • expression semicolon
   --    returnStmt → returnWord • semicolon
   ⟨(.semicolon, 56) :: operandShifts, (.expression, 55) :: assignmentGotos, none⟩,
   -- 22: whileStmt → whileWord • leftParen expression rightParen statement
   ⟨[(.leftParen, 57)], [], none⟩,
   -- 23: block → leftBrace • declarations rightBrace
   --    block → leftBrace • rightBrace
   ⟨(.rightBrace, 59) :: declarationShifts,
     [(Nonterminal.declaration, 2), (.declarations, 58)] ++ declarationGotos, none⟩,
   -- 24: expression → assignment •
   ⟨[], [], some 47⟩,
   -- 25: assignment → logicOr • equal assignment
   --    assignment → logicOr •
   ⟨[(.equal, 60)], [], some 49⟩,
   -- 26: logicOr → logicAnd • orTail
   --    logicOr → logicAnd •
   ⟨[(.orWord, 62)], [(.orTail, 61)], some 51⟩,
   -- 27: logicAnd → equality • andTail
   --    logicAnd → equality •
   ⟨[(.andWord, 64)], [(.andTail, 63)], some 55⟩,
   -- 28: equality → comparison • equalityTail
   --    equality → comparison •
   ⟨[(.bangEqual, 66), (.equalEqual, 67)], [(.equalityTail, 65)], some 59⟩,
   -- 29: comparison → term • comparisonTail
   --    comparison → term •
   ⟨[(.greater, 69), (.greaterEqual, 70), (.less, 71), (.lessEqual, 72)],
     [(.comparisonTail, 68)], some 65⟩,
   -- 30: term → factor • termTail
   --    term → factor •
   ⟨[(.minus, 74), (.plus, 75)], [(.termTail, 73)], some 75⟩,
   -- 31: factor → unary • factorTail
   --    factor → unary •
   ⟨[(.slash, 77), (.star, 78)], [(.factorTail, 76)], some 81⟩,
   -- 32: unary → bang • unary
   ⟨operandShifts, (.unary, 79) :: callGotos, none⟩,
   -- 33: unary → minus • unary
   ⟨operandShifts, (.unary, 80) :: callGotos, none⟩,
   -- 34: unary → callChain •
   --    callChain → callChain • leftParen arguments rightParen
   --    callChain → callChain • leftParen rightParen
   --    callChain → callChain • dot identifier
   ⟨[(.leftParen, 81), (.dot, 82)], [], some 88⟩,
   -- 35: callChain → primary •
   ⟨[], [], some 89⟩,
   -- 36: primary → trueWord •
   ⟨[], [], some 97⟩,
   -- 37: primary → falseWord •
   ⟨[], [], some 98⟩,
   -- 38: primary → nilWord •
   ⟨[], [], some 99⟩,
   -- 39: primary → thisWord •
   ⟨[], [], some 100⟩,
   -- 40: primary → number •
   ⟨[], [], some 101⟩,
   -- 41: primary → string •
   ⟨[], [], some 102⟩,
   -- 42: primary → identifier •
   ⟨[], [], some 103⟩,
   -- 43: primary → leftParen • expression rightParen
   ⟨operandShifts, (.expression, 83) :: assignmentGotos, none⟩,
   -- 44: primary → superWord • dot identifier
   ⟨[(.dot, 84)], [], none⟩,
   -- 45: text → program •
   ⟨[], [], none⟩,
   -- 46: declarations → declarations declaration •
   ⟨[], [], some 3⟩,
   -- 47: classDecl → classWord identifier • superclass leftBrace methods rightBrace
   --    classDecl → classWord identifier • superclass leftBrace rightBrace
   --    classDecl → classWord identifier • leftBrace methods rightBrace
   --    classDecl → classWord identifier • leftBrace rightBrace
   ⟨[(.leftBrace, 86), (.less, 87)], [(.superclass, 85)], none⟩,
   -- 48: funDecl → funWord function •
   ⟨[], [], some 15⟩,
   -- 49: function → identifier • leftParen parameters rightParen block
   --    function → identifier • leftParen rightParen block
   ⟨[(.leftParen, 88)], [], none⟩,
   -- 50: varDecl → varWord identifier • equal expression semicolon
   --    varDecl → varWord identifier • semicolon
   ⟨[(.equal, 89), (.semicolon, 90)], [], none⟩,
   -- 51: exprStmt → expression semicolon •
   ⟨[], [], some 31⟩,
   -- 52: forStmt → forWord leftParen • forInitializer expression semicolon expression rightParen
   --      statement
   --    forStmt → forWord leftParen • forInitializer expression semicolon rightParen statement
   --    forStmt → forWord leftParen • forInitializer semicolon expression rightParen statement
   --    forStmt → forWord leftParen • forInitializer semicolon rightParen statement
   ⟨[(TokenKind.varWord, 9), (.semicolon, 94)] ++ operandShifts,
     [(Nonterminal.expression, 17), (.forInitializer, 91), (.varDecl, 92), (.exprStmt, 93)] ++
       assignmentGotos, none⟩,
   -- 53: ifStmt → ifWord leftParen • expression rightParen statement elseWord statement
   --    ifStmt → ifWord leftParen • expression rightParen statement
   ⟨operandShifts, (.expression, 95) :: assignmentGotos, none⟩,
   -- 54: printStmt → printWord expression • semicolon
   ⟨[(.semicolon, 96)], [], none⟩,
   -- 55: returnStmt → returnWord expression • semicolon
   ⟨[(.semicolon, 97)], [], none⟩,
   -- 56: returnStmt → returnWord semicolon •
   ⟨[], [], some 43⟩,
   -- 57: whileStmt → whileWord leftParen • expression rightParen statement
   ⟨operandShifts, (.expression, 98) :: assignmentGotos, none⟩,
   -- 58: declarations → declarations • declaration
   --    block → leftBrace declarations • rightBrace
   ⟨(.rightBrace, 99) :: declarationShifts, (.declaration, 46) :: declarationGotos, none⟩,
   -- 59: block → leftBrace rightBrace •
   ⟨[], [], some 46⟩,
   -- 60: assignment → logicOr equal • assignment
   ⟨operandShifts, (.assignment, 100) :: orGotos, none⟩,
   -- 61: logicOr → logicAnd orTail •
   --    orTail → orTail • orWord logicAnd
   ⟨[(.orWord, 101)], [], some 50⟩,
   -- 62: orTail → orWord • logicAnd
   ⟨operandShifts, (.logicAnd, 102) :: equalityGotos, none⟩,
   -- 63: logicAnd → equality andTail •
   --    andTail → andTail • andWord equality
   ⟨[(.andWord, 103)], [], some 54⟩,
   -- 64: andTail → andWord • equality
   ⟨operandShifts, (.equality, 104) :: comparisonGotos, none⟩,
   -- 65: equality → comparison equalityTail •
   --    equalityTail → equalityTail • bangEqual comparison
   --    equalityTail → equalityTail • equalEqual comparison
   ⟨[(.bangEqual, 105), (.equalEqual, 106)], [], some 58⟩,
   -- 66: equalityTail → bangEqual • comparison
   ⟨operandShifts, (.comparison, 107) :: termGotos, none⟩,
   -- 67: equalityTail → equalEqual • comparison
   ⟨operandShifts, (.comparison, 108) :: termGotos, none⟩,
   -- 68: comparison → term comparisonTail •
   --    comparisonTail → comparisonTail • greater term
   --    comparisonTail → comparisonTail • greaterEqual term
   --    comparisonTail → comparisonTail • less term
   --    comparisonTail → comparisonTail • lessEqual term
   ⟨[(.greater, 109), (.greaterEqual, 110), (.less, 111), (.lessEqual, 112)], [], some 64⟩,
   -- 69: comparisonTail → greater • term
   ⟨operandShifts, (.term, 113) :: factorGotos, none⟩,
   -- 70: comparisonTail → greaterEqual • term
   ⟨operandShifts, (.term, 114) :: factorGotos, none⟩,
   -- 71: comparisonTail → less • term
   ⟨operandShifts, (.term, 115) :: factorGotos, none⟩,
   -- 72: comparisonTail → lessEqual • term
   ⟨operandShifts, (.term, 116) :: factorGotos, none⟩,
   -- 73: term → factor termTail •
   --    termTail → termTail • minus factor
   --    termTail → termTail • plus factor
   ⟨[(.minus, 117), (.plus, 118)], [], some 74⟩,
   -- 74: termTail → minus • factor
   ⟨operandShifts, (.factor, 119) :: unaryGotos, none⟩,
   -- 75: termTail → plus • factor
   ⟨operandShifts, (.factor, 120) :: unaryGotos, none⟩,
   -- 76: factor → unary factorTail •
   --    factorTail → factorTail • slash unary
   --    factorTail → factorTail • star unary
   ⟨[(.slash, 121), (.star, 122)], [], some 80⟩,
   -- 77: factorTail → slash • unary
   ⟨operandShifts, (.unary, 123) :: callGotos, none⟩,
   -- 78: factorTail → star • unary
   ⟨operandShifts, (.unary, 124) :: callGotos, none⟩,
   -- 79: unary → bang unary •
   ⟨[], [], some 86⟩,
   -- 80: unary → minus unary •
   ⟨[], [], some 87⟩,
   -- 81: callChain → callChain leftParen • arguments rightParen
   --    callChain → callChain leftParen • rightParen
   ⟨(.rightParen, 126) :: operandShifts,
     [(Nonterminal.arguments, 125), (.expression, 127)] ++ assignmentGotos, none⟩,
   -- 82: callChain → callChain dot • identifier
   ⟨[(.identifier, 128)], [], none⟩,
   -- 83: primary → leftParen expression • rightParen
   ⟨[(.rightParen, 129)], [], none⟩,
   -- 84: primary → superWord dot • identifier
   ⟨[(.identifier, 130)], [], none⟩,
   -- 85: classDecl → classWord identifier superclass • leftBrace methods rightBrace
   --    classDecl → classWord identifier superclass • leftBrace rightBrace
   ⟨[(.leftBrace, 131)], [], none⟩,
   -- 86: classDecl → classWord identifier leftBrace • methods rightBrace
   --    classDecl → classWord identifier leftBrace • rightBrace
   ⟨[(.rightBrace, 133), (.identifier, 49)], [(.methods, 132), (.function, 134)], none⟩,
   -- 87: superclass → less • identifier
   ⟨[(.identifier, 135)], [], none⟩,
   -- 88: function → identifier leftParen • parameters rightParen block
   --    function → identifier leftParen • rightParen block
   ⟨[(.rightParen, 137), (.identifier, 138)], [(.parameters, 136)], none⟩,
   -- 89: varDecl → varWord identifier equal • expression semicolon
   ⟨operandShifts, (.expression, 139) :: assignmentGotos, none⟩,
   -- 90: varDecl → varWord identifier semicolon •
   ⟨[], [], some 23⟩,
   -- 91: forStmt → forWord leftParen forInitializer • expression semicolon expression rightParen
   --      statement
   --    forStmt → forWord leftParen forInitializer • expression semicolon rightParen statement
   --    forStmt → forWord leftParen forInitializer • semicolon expression rightParen statement
   --    forStmt → forWord leftParen forInitializer • semicolon rightParen statement
   ⟨(.semicolon, 141) :: operandShifts, (.expression, 140) :: assignmentGotos, none⟩,
   -- 92: forInitializer → varDecl •
   ⟨[], [], some 36⟩,
   -- 93: forInitializer → exprStmt •
   ⟨[], [], some 37⟩,
   -- 94: forInitializer → semicolon •
   ⟨[], [], some 38⟩,
   -- 95: ifStmt → ifWord leftParen expression • rightParen statement elseWord statement
   --    ifStmt → ifWord leftParen expression • rightParen statement
   ⟨[(.rightParen, 142)], [], none⟩,
   -- 96: printStmt → printWord expression semicolon •
   ⟨[], [], some 41⟩,
   -- 97: returnStmt → returnWord expression semicolon •
   ⟨[], [], some 42⟩,
   -- 98: whileStmt → whileWord leftParen expression • rightParen statement
   ⟨[(.rightParen, 143)], [], none⟩,
   -- 99: block → leftBrace declarations rightBrace •
   ⟨[], [], some 45⟩,
   -- 100: assignment → logicOr equal assignment •
   ⟨[], [], some 48⟩,
   -- 101: orTail → orTail orWord • logicAnd
   ⟨operandShifts, (.logicAnd, 144) :: equalityGotos, none⟩,
   -- 102: orTail → orWord logicAnd •
   ⟨[], [], some 52⟩,
   -- 103: andTail → andTail andWord • equality
   ⟨operandShifts, (.equality, 145) :: comparisonGotos, none⟩,
   -- 104: andTail → andWord equality •
   ⟨[], [], some 56⟩,
   -- 105: equalityTail → equalityTail bangEqual • comparison
   ⟨operandShifts, (.comparison, 146) :: termGotos, none⟩,
   -- 106: equalityTail → equalityTail equalEqual • comparison
   ⟨operandShifts, (.comparison, 147) :: termGotos, none⟩,
   -- 107: equalityTail → bangEqual comparison •
   ⟨[], [], some 60⟩,
   -- 108: equalityTail → equalEqual comparison •
   ⟨[], [], some 61⟩,
   -- 109: comparisonTail → comparisonTail greater • term
   ⟨operandShifts, (.term, 148) :: factorGotos, none⟩,
   -- 110: comparisonTail → comparisonTail greaterEqual • term
   ⟨operandShifts, (.term, 149) :: factorGotos, none⟩,
   -- 111: comparisonTail → comparisonTail less • term
   ⟨operandShifts, (.term, 150) :: factorGotos, none⟩,
   -- 112: comparisonTail → comparisonTail lessEqual • term
   ⟨operandShifts, (.term, 151) :: factorGotos, none⟩,
   -- 113: comparisonTail → greater term •
   ⟨[], [], some 66⟩,
   -- 114: comparisonTail → greaterEqual term •
   ⟨[], [], some 67⟩,
   -- 115: comparisonTail → less term •
   ⟨[], [], some 68⟩,
   -- 116: comparisonTail → lessEqual term •
   ⟨[], [], some 69⟩,
   -- 117: termTail → termTail minus • factor
   ⟨operandShifts, (.factor, 152) :: unaryGotos, none⟩,
   -- 118: termTail → termTail plus • factor
   ⟨operandShifts, (.factor, 153) :: unaryGotos, none⟩,
   -- 119: termTail → minus factor •
   ⟨[], [], some 76⟩,
   -- 120: termTail → plus factor •
   ⟨[], [], some 77⟩,
   -- 121: factorTail → factorTail slash • unary
   ⟨operandShifts, (.unary, 154) :: callGotos, none⟩,
   -- 122: factorTail → factorTail star • unary
   ⟨operandShifts, (.unary, 155) :: callGotos, none⟩,
   -- 123: factorTail → slash unary •
   ⟨[], [], some 82⟩,
   -- 124: factorTail → star unary •
   ⟨[], [], some 83⟩,
   -- 125: callChain → callChain leftParen arguments • rightParen
   ⟨[(.rightParen, 156)], [], none⟩,
   -- 126: callChain → callChain leftParen rightParen •
   ⟨[], [], some 91⟩,
   -- 127: arguments → expression • moreArguments
   --    arguments → expression •
   ⟨[(.comma, 158)], [(.moreArguments, 157)], some 94⟩,
   -- 128: callChain → callChain dot identifier •
   ⟨[], [], some 92⟩,
   -- 129: primary → leftParen expression rightParen •
   ⟨[], [], some 104⟩,
   -- 130: primary → superWord dot identifier •
   ⟨[], [], some 105⟩,
   -- 131: classDecl → classWord identifier superclass leftBrace • methods rightBrace
   --    classDecl → classWord identifier superclass leftBrace • rightBrace
   ⟨[(.rightBrace, 160), (.identifier, 49)], [(.methods, 159), (.function, 134)], none⟩,
   -- 132: classDecl → classWord identifier leftBrace methods • rightBrace
   --    methods → methods • function
   ⟨[(.rightBrace, 161), (.identifier, 49)], [(.function, 162)], none⟩,
   -- 133: classDecl → classWord identifier leftBrace rightBrace •
   ⟨[], [], some 11⟩,
   -- 134: methods → function •
   ⟨[], [], some 12⟩,
   -- 135: superclass → less identifier •
   ⟨[], [], some 14⟩,
   -- 136: function → identifier leftParen parameters • rightParen block
   ⟨[(.rightParen, 163)], [], none⟩,
   -- 137: function → identifier leftParen rightParen • block
   ⟨[(.leftBrace, 23)], [(.block, 164)], none⟩,
   -- 138: parameters → identifier • moreParameters
   --    parameters → identifier •
   ⟨[(.comma, 166)], [(.moreParameters, 165)], some 19⟩,
   -- 139: varDecl → varWord identifier equal expression • semicolon
   ⟨[(.semicolon, 167)], [], none⟩,
   -- 140: forStmt → forWord leftParen forInitializer expression • semicolon expression
   --      rightParen statement
   --    forStmt → forWord leftParen forInitializer expression • semicolon rightParen statement
   ⟨[(.semicolon, 168)], [], none⟩,
   -- 141: forStmt → forWord leftParen forInitializer semicolon • expression rightParen statement
   --    forStmt → forWord leftParen forInitializer semicolon • rightParen statement
   ⟨(.rightParen, 170) :: operandShifts, (.expression, 169) :: assignmentGotos, none⟩,
   -- 142: ifStmt → ifWord leftParen expression rightParen • statement elseWord statement
   --    ifStmt → ifWord leftParen expression rightParen • statement
   ⟨statementShifts, (.statement, 171) :: statementGotos, none⟩,
   -- 143: whileStmt → whileWord leftParen expression rightParen • statement
   ⟨statementShifts, (.statement, 172) :: statementGotos, none⟩,
   -- 144: orTail → orTail orWord logicAnd •
   ⟨[], [], some 53⟩,
   -- 145: andTail → andTail andWord equality •
   ⟨[], [], some 57⟩,
   -- 146: equalityTail → equalityTail bangEqual comparison •
   ⟨[], [], some 62⟩,
   -- 147: equalityTail → equalityTail equalEqual comparison •
   ⟨[], [], some 63⟩,
   -- 148: comparisonTail → comparisonTail greater term •
   ⟨[], [], some 70⟩,
   -- 149: comparisonTail → comparisonTail greaterEqual term •
   ⟨[], [], some 71⟩,
   -- 150: comparisonTail → comparisonTail less term •
   ⟨[], [], some 72⟩,
   -- 151: comparisonTail → comparisonTail lessEqual term •
   ⟨[], [], some 73⟩,
   -- 152: termTail → termTail minus factor •
   ⟨[], [], some 78⟩,
   -- 153: termTail → termTail plus factor •
   ⟨[], [], some 79⟩,
   -- 154: factorTail → factorTail slash unary •
   ⟨[], [], some 84⟩,
   -- 155: factorTail → factorTail star unary •
   ⟨[], [], some 85⟩,
   -- 156: callChain → callChain leftParen arguments rightParen •
   ⟨[], [], some 90⟩,
   -- 157: arguments → expression moreArguments •
   --    moreArguments → moreArguments • comma expression
   ⟨[(.comma, 173)], [], some 93⟩,
   -- 158: moreArguments → comma • expression
   ⟨operandShifts, (.expression, 174) :: assignmentGotos, none⟩,
   -- 159: classDecl → classWord identifier superclass leftBrace methods • rightBrace
   --    methods → methods • function
   ⟨[(.rightBrace, 175), (.identifier, 49)], [(.function, 162)], none⟩,
   -- 160: classDecl → classWord identifier superclass leftBrace rightBrace •
   ⟨[], [], some 9⟩,
   -- 161: classDecl → classWord identifier leftBrace methods rightBrace •
   ⟨[], [], some 10⟩,
   -- 162: methods → methods function •
   ⟨[], [], some 13⟩,
   -- 163: function → identifier leftParen parameters rightParen • block
   ⟨[(.leftBrace, 23)], [(.block, 176)], none⟩,
   -- 164: function → identifier leftParen rightParen block •
   ⟨[], [], some 17⟩,
   -- 165: parameters → identifier moreParameters •
   --    moreParameters → moreParameters • comma identifier
   ⟨[(.comma, 177)], [], some 18⟩,
   -- 166: moreParameters → comma • identifier
   ⟨[(.identifier, 178)], [], none⟩,
   -- 167: varDecl → varWord identifier equal expression semicolon •
   ⟨[], [], some 22⟩,
   -- 168: forStmt → forWord leftParen forInitializer expression semicolon • expression
   --      rightParen statement
   --    forStmt → forWord leftParen forInitializer expression semicolon • rightParen statement
   ⟨(.rightParen, 180) :: operandShifts, (.expression, 179) :: assignmentGotos, none⟩,
   -- 169: forStmt → forWord leftParen forInitializer semicolon expression • rightParen statement
   ⟨[(.rightParen, 181)], [], none⟩,
   -- 170: forStmt → forWord leftParen forInitializer semicolon rightParen • statement
   ⟨statementShifts, (.statement, 182) :: statementGotos, none⟩,
   -- 171: ifStmt → ifWord leftParen expression rightParen statement • elseWord statement
   --    ifStmt → ifWord leftParen expression rightParen statement •
   ⟨[(.elseWord, 183)], [], some 40⟩,
   -- 172: whileStmt → whileWord leftParen expression rightParen statement •
   ⟨[], [], some 44⟩,
   -- 173: moreArguments → moreArguments comma • expression
   ⟨operandShifts, (.expression, 184) :: assignmentGotos, none⟩,
   -- 174: moreArguments → comma expression •
   ⟨[], [], some 95⟩,
   -- 175: classDecl → classWord identifier superclass leftBrace methods rightBrace •
   ⟨[], [], some 8⟩,
   -- 176: function → identifier leftParen parameters rightParen block •
   ⟨[], [], some 16⟩,
   -- 177: moreParameters → moreParameters comma • identifier
   ⟨[(.identifier, 185)], [], none⟩,
   -- 178: moreParameters → comma identifier •
   ⟨[], [], some 20⟩,
   -- 179: forStmt → forWord leftParen forInitializer expression semicolon expression •
   --      rightParen statement
   ⟨[(.rightParen, 186)], [], none⟩,
   -- 180: forStmt → forWord leftParen forInitializer expression semicolon rightParen • statement
   ⟨statementShifts, (.statement, 187) :: statementGotos, none⟩,
   -- 181: forStmt → forWord leftParen forInitializer semicolon expression rightParen • statement
   ⟨statementShifts, (.statement, 188) :: statementGotos, none⟩,
   -- 182: forStmt → forWord leftParen forInitializer semicolon rightParen statement •
   ⟨[], [], some 35⟩,
   -- 183: ifStmt → ifWord leftParen expression rightParen statement elseWord • statement
   ⟨statementShifts, (.statement, 189) :: statementGotos, none⟩,
   -- 184: moreArguments → moreArguments comma expression •
   ⟨[], [], some 96⟩,
   -- 185: moreParameters → moreParameters comma identifier •
   ⟨[], [], some 21⟩,
   -- 186: forStmt → forWord leftParen forInitializer expression semicolon expression rightParen
   --      • statement
   ⟨statementShifts, (.statement, 190) :: statementGotos, none⟩,
   -- 187: forStmt → forWord leftParen forInitializer expression semicolon rightParen statement •
   ⟨[], [], some 33⟩,
   -- 188: forStmt → forWord leftParen forInitializer semicolon expression rightParen statement •
   ⟨[], [], some 34⟩,
   -- 189: ifStmt → ifWord leftParen expression rightParen statement elseWord statement •
   ⟨[], [], some 39⟩,
   -- 190: forStmt → forWord leftParen forInitializer expression semicolon expression rightParen
   --      statement •
   ⟨[], [], some 32⟩
  ]

end Automaton

end LoxForms
