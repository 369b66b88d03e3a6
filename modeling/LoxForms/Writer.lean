/-!
# Indented output

A writer puts out whole lines. While it is debugging, its lines stand behind a
margin that grows with the depth of the blocks they are in, and it traces what
goes on; otherwise there is neither a margin nor a trace, and the depth stays
as it is.

`Writer.inside` runs a body within a block. The block is closed after the body
whether the body has failed or not.
-/

namespace LoxForms

structure Writer where
  /-- How many spaces the margin has for each level of depth. -/
  indentSize : Int
  depth : Int
  debugging : Bool
  /-- What has been written. -/
  text : String
deriving DecidableEq, Repr

namespace Writer

/-- A writer at depth zero that has written nothing. -/
def fresh (indentSize : Int) (debugging : Bool) : Writer := ⟨indentSize, 0, debugging, ""⟩

def standardIndent : Int := 3

/-- The margin of the next line. Where the depth or the size of an indent is
negative there is none. -/
def margin (w : Writer) : String :=
  .ofList (List.replicate (if w.debugging then w.indentSize.toNat * w.depth.toNat else 0) ' ')

def write (w : Writer) (s : String) : Writer := { w with text := w.text ++ s }

def println (w : Writer) (message : String) : Writer := w.write (w.margin ++ message ++ "\n")

/-- Writes a line of the trace. -/
def trace (w : Writer) (message : String) : Writer :=
  if w.debugging then w.println message else w

def indent (w : Writer) : Writer :=
  if w.debugging then { w with depth := w.depth + 1 } else w

def dedent (w : Writer) : Writer :=
  if w.debugging then { w with depth := w.depth - 1 } else w

/-- Goes several levels deeper. -/
def indentBy (w : Writer) : Nat → Writer
  | 0 => w
  | n + 1 => w.indent.indentBy n

/-- A line of dashes, which has no margin. -/
def divisionLine : String := .ofList (List.replicate 80 '-' ++ ['\n'])

def divide (w : Writer) : Writer := w.write divisionLine

/-! ## Blocks -/

/-- What can be around a part of the output. -/
inductive Block where
  /-- One more level of depth. -/
  | indented
  /-- A division line above and one below. -/
  | box
deriving DecidableEq, Repr

def enter (w : Writer) : Block → Writer
  | .indented => w.indent
  | .box => w.divide

def leave (w : Writer) : Block → Writer
  | .indented => w.dedent
  | .box => w.divide

/-- Runs a body inside a block. -/
def inside {ε α : Type} (w : Writer) (block : Block) (body : Writer → Writer × Except ε α) :
    Writer × Except ε α :=
  let (after, result) := body (w.enter block)
  (after.leave block, result)

/-! ## One step at a time -/

inductive Step where
  | println (message : String)
  | trace (message : String)
  | indent
  | dedent
  | divide
  | debug (on : Bool)
  | enter (block : Block)
  /-- Leaves the innermost block. -/
  | leave
deriving DecidableEq, Repr

/-- A writer with the blocks that it is in, the innermost first. -/
structure Session where
  writer : Writer
  blocks : List Block

/-- One step. Leaving no block does nothing. -/
def Session.step (s : Session) : Step → Session
  | .println message => { s with writer := s.writer.println message }
  | .trace message => { s with writer := s.writer.trace message }
  | .indent => { s with writer := s.writer.indent }
  | .dedent => { s with writer := s.writer.dedent }
  | .divide => { s with writer := s.writer.divide }
  | .debug on => { s with writer := { s.writer with debugging := on } }
  | .enter block => ⟨s.writer.enter block, block :: s.blocks⟩
  | .leave =>
    match s.blocks with
    | [] => s
    | block :: rest => ⟨s.writer.leave block, rest⟩

/-- What a step writes, and the depth after it. -/
structure Written where
  text : String
  depth : Int
deriving DecidableEq, Repr

/-- What each of several steps writes. -/
def Session.run (s : Session) : List Step → List Written
  | [] => []
  | step :: steps =>
    let after := { s with writer := { s.writer with text := "" } }.step step
    ⟨after.writer.text, after.writer.depth⟩ :: after.run steps

end Writer

end LoxForms
