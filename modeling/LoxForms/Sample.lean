import LoxForms.Value
import LoxForms.Double.Numeral
/-!
# Samples

A few syntax trees that are put together by hand, and a few programs as texts.
-/

namespace LoxForms

namespace Sample

/-- A token of a kind without a literal. -/
def token (kind : TokenKind) (lexeme : String) (line : Int) : Value :=
  .token kind lexeme .nil line

def name (lexeme : String) (line : Int) : Value := token .identifier lexeme line

def fortyFivePointSixSeven : Value := .float (Decimal.toDouble false ⟨4567, -2⟩)

/-- The product of `-123` and `(45.67)`. -/
def arithmeticExpression : Value :=
  .binary
    (.unary (token .minus "-" 1) (.literal (.int 123)))
    (token .star "*" 1)
    (.grouping (.literal fortyFivePointSixSeven))

/-- A class with a superclass, and with one method, which has a parameter, a
choice and a return. -/
def greeterClass : Value :=
  let parameter := name "name" 3
  .classDeclaration (name "Greeter" 1) (.variableName (name "Base" 1))
    (.list [.functionDeclaration (name "greet" 2) (.list [parameter])
      (.list [
        .ifStatement (.variableName parameter) (.print (.variableName parameter))
          (.print (.literal (.text "stranger"))),
        .returnStatement .nil])])

/-- A block in a block, with a statement in each. -/
def nestedBlocks : Value :=
  .block (.list [.block (.list [.print (.literal (.int 1))]), .print (.literal (.int 2))])

/-- The trees by their names. -/
def trees : List (String × Value) :=
  [("arithmetic_expression", arithmeticExpression), ("greeter_class", greeterClass),
   ("nested_blocks", nestedBlocks)]

/-- A class with a field, whose superclass can be left out. -/
def counterClass (withSuperclass : Bool) : String :=
  "\n    class Counter" ++ (if withSuperclass then " < Base" else "") ++ " \x7b\n" ++
  "        init(start) \x7b\n" ++
  "            this.count = start;\n" ++
  "        \x7d\n" ++
  "\n" ++
  "        increment() \x7b\n" ++
  "            this.count = this.count + 1;\n" ++
  "            return this.count;\n" ++
  "        \x7d\n" ++
  "    \x7d\n    "

/-- A loop from three down to one. -/
def countdownLoop : String :=
  "\n    for (var i = 3; i > 0; i = i - 1) \x7b\n" ++
  "        print i;\n" ++
  "    \x7d\n    "

/-- The texts by their names. -/
def sources (withSuperclass : Bool) : List (String × String) :=
  [("counter_class", counterClass withSuperclass), ("countdown_loop", countdownLoop)]

end Sample

end LoxForms
