import LoxForms.Proofs.Form.Report
/-!
# Margins follow the nesting

A script is a program for a writer: lines and traces, one after the other and in blocks
within blocks, where an error can be raised anywhere and leaves all the blocks up to where
it is rescued, or all of them.

`Script.entries` tells what a script puts out, each entry with the blocks that it is in.
The writer puts out just that (`run_nested`): a line has the margin of the indented blocks
around it, a division line above a box has one below it, and in the end the depth is the
one at the start. The induction is on the script. Along it the writer is at the depth that
the blocks make (`Amid`), and a block is left at the depth where it has been entered,
whether its body has failed or not.
-/

namespace LoxForms

namespace Writer

/-- A program for a writer, which may raise an error. -/
inductive Script (ε : Type) where
  | skip
  | println (message : String)
  | trace (message : String)
  | raise (error : ε)
  /-- One script and, unless it raises an error, another one. -/
  | next (first second : Script ε)
  | inside (block : Block) (body : Script ε)
  /-- A script and, if it raises an error, what is done about that. -/
  | rescue (body : Script ε) (handler : ε → Script ε)

/-- Something that is put out, and the blocks that it is in, the innermost first. -/
inductive Entry where
  | printed (around : List Block) (message : String)
  | traced (around : List Block) (message : String)
  /-- The division line above a box. -/
  | opening (around : List Block)
  /-- The division line below a box. -/
  | closing (around : List Block)

namespace Entry

def around : Entry → List Block
  | printed around _ | traced around _ | opening around | closing around => around

/-- The margin of a line in some blocks: an indent for each level of depth at the start,
and one more for each indented block. There is none without debugging. -/
def margin (indentSize depth : Nat) (debugging : Bool) (around : List Block) : String :=
  if debugging then .ofList (List.replicate (indentSize * (depth + around.count .indented)) ' ')
  else ""

/-- What is written of an entry. -/
def text (indentSize depth : Nat) (debugging : Bool) : Entry → String
  | printed around message => margin indentSize depth debugging around ++ message ++ "\n"
  | traced around message =>
    if debugging then margin indentSize depth debugging around ++ message ++ "\n" else ""
  | opening _ | closing _ => divisionLine

end Entry

namespace Script

variable {ε : Type}

/-- Runs a script. -/
def run : Script ε → Writer → Writer × Except ε Unit
  | skip, w => (w, .ok ())
  | println message, w => (w.println message, .ok ())
  | trace message, w => (w.trace message, .ok ())
  | raise e, w => (w, .error e)
  | next first second, w =>
    match first.run w with
    | (w, .ok ()) => second.run w
    | (w, .error e) => (w, .error e)
  | inside block body, w => w.inside block body.run
  | rescue body handler, w =>
    match body.run w with
    | (w, .ok ()) => (w, .ok ())
    | (w, .error e) => (handler e).run w

/-- The error that a script raises, if it does. -/
def result : Script ε → Except ε Unit
  | skip | println _ | trace _ => .ok ()
  | raise e => .error e
  | next first second =>
    match first.result with
    | .ok () => second.result
    | .error e => .error e
  | inside _ body => body.result
  | rescue body handler =>
    match body.result with
    | .ok () => .ok ()
    | .error e => (handler e).result

/-- What a script puts out that is in some blocks itself. -/
def entries (around : List Block) : Script ε → List Entry
  | skip | raise _ => []
  | println message => [.printed around message]
  | trace message => [.traced around message]
  | next first second => first.entries around ++
    match first.result with
    | .ok () => second.entries around
    | .error _ => []
  | inside .indented body => body.entries (.indented :: around)
  | inside .box body => .opening around :: (body.entries (.box :: around) ++ [Entry.closing around])
  | rescue body handler => body.entries around ++
    match body.result with
    | .ok () => []
    | .error e => (handler e).entries around

end Script

/-! ## Division lines -/

/-- The division lines are in pairs: one that opens a box is followed by the one that
closes it, and what is between them is in the box. -/
inductive Paired : List Entry → Prop
  | nil : Paired []
  | printed {around : List Block} {message : String} {rest : List Entry} :
      Paired rest → Paired (.printed around message :: rest)
  | traced {around : List Block} {message : String} {rest : List Entry} :
      Paired rest → Paired (.traced around message :: rest)
  | box {around : List Block} {inner rest : List Entry} :
      (∀ entry ∈ inner, (Block.box :: around) <:+ entry.around) → Paired inner → Paired rest →
      Paired (.opening around :: (inner ++ .closing around :: rest))

variable {ε : Type} {around : List Block} {xs ys : List Entry} {text message : String}

theorem Paired.append (hxs : Paired xs) (hys : Paired ys) : Paired (xs ++ ys) := by
  induction hxs with
  | nil => exact hys
  | printed _ ih => exact .printed ih
  | traced _ ih => exact .traced ih
  | box hin hinner _ _ ih =>
    rw [List.cons_append, List.append_assoc]
    exact .box hin hinner ih

/-- Entries of a script that is in some blocks: the division lines are in pairs, and all
of it is in the blocks. -/
structure Enclosed (around : List Block) (entries : List Entry) : Prop where
  paired : Paired entries
  within : ∀ entry ∈ entries, around <:+ entry.around

namespace Enclosed

theorem nil : Enclosed around [] := ⟨.nil, List.forall_mem_nil _⟩

theorem append (hxs : Enclosed around xs) (hys : Enclosed around ys) :
    Enclosed around (xs ++ ys) :=
  ⟨hxs.paired.append hys.paired, List.forall_mem_append.mpr ⟨hxs.within, hys.within⟩⟩

/-- What is in one block more is in the blocks around it. -/
theorem outwards {block : Block} (h : Enclosed (block :: around) xs) : Enclosed around xs :=
  ⟨h.paired, fun entry hentry => (List.suffix_cons block around).trans (h.within entry hentry)⟩

theorem boxed (h : Enclosed (.box :: around) xs) :
    Enclosed around (.opening around :: (xs ++ [Entry.closing around])) := by
  refine ⟨.box h.within h.paired .nil, ?_⟩
  rw [List.forall_mem_cons, List.forall_mem_append, List.forall_mem_singleton]
  exact ⟨List.suffix_refl _, h.outwards.within, List.suffix_refl _⟩

/-- **Every box that is opened is closed**, whatever is raised in it. -/
theorem entries (s : Script ε) (around : List Block) : Enclosed around (s.entries around) := by
  induction s generalizing around with
  | skip | raise => exact .nil
  | println => exact ⟨.printed .nil, List.forall_mem_singleton.mpr (List.suffix_refl _)⟩
  | trace => exact ⟨.traced .nil, List.forall_mem_singleton.mpr (List.suffix_refl _)⟩
  | next first second ihfirst ihsecond =>
    rw [Script.entries]
    refine (ihfirst around).append ?_
    split
    · exact ihsecond around
    · exact .nil
  | inside block body ih =>
    cases block with
    | indented => exact (ih (.indented :: around)).outwards
    | box => exact (ih (.box :: around)).boxed
  | rescue body handler ihbody ihhandler =>
    rw [Script.entries]
    refine (ihbody around).append ?_
    split
    · exact .nil
    · exact ihhandler _ around

end Enclosed

/-! ## Margins -/

/-- The text of entries. -/
def textOf (indentSize depth : Nat) (debugging : Bool) (entries : List Entry) : String :=
  String.join (entries.map (Entry.text indentSize depth debugging))

/-- A writer amid some blocks, outside of which it is at some depth. -/
structure Amid (indentSize depth : Nat) (debugging : Bool) (around : List Block) (w : Writer) :
    Prop where
  indentSize_eq : w.indentSize = indentSize
  debugging_eq : w.debugging = debugging
  depth_eq : debugging → w.depth = (depth + around.count .indented : Nat)

section

variable {indentSize depth : Nat} {debugging : Bool} {w : Writer}

theorem textOf_nil : textOf indentSize depth debugging [] = "" := String.join_nil

theorem textOf_cons (entry : Entry) : textOf indentSize depth debugging (entry :: xs) =
    entry.text indentSize depth debugging ++ textOf indentSize depth debugging xs := by
  rw [textOf, List.map_cons, String.join_cons]
  rfl

theorem textOf_append : textOf indentSize depth debugging (xs ++ ys) =
    textOf indentSize depth debugging xs ++ textOf indentSize depth debugging ys := by
  rw [textOf, List.map_append, String.join_append]
  rfl

theorem textOf_singleton (entry : Entry) :
    textOf indentSize depth debugging [entry] = entry.text indentSize depth debugging := by
  rw [textOf_cons, textOf_nil, String.append_empty]

namespace Amid

theorem write (h : Amid indentSize depth debugging around w) :
    Amid indentSize depth debugging around (w.write text) :=
  ⟨h.indentSize_eq, h.debugging_eq, h.depth_eq⟩

theorem indent (h : Amid indentSize depth debugging around w) :
    Amid indentSize depth debugging (.indented :: around) w.indent := by
  obtain ⟨hsize, rfl, hdepth⟩ := h
  cases hdebugging : w.debugging with
  | false =>
    rw [Writer.indent, if_neg (by rw [hdebugging]; exact Bool.false_ne_true)]
    exact ⟨hsize, hdebugging, fun hd => absurd hd Bool.false_ne_true⟩
  | true =>
    rw [Writer.indent, if_pos hdebugging]
    refine ⟨hsize, hdebugging, fun _ => ?_⟩
    rw [List.count_cons_self, hdepth hdebugging]
    rfl

/-- A box is not a level of depth. -/
theorem box (h : Amid indentSize depth debugging around w) :
    Amid indentSize depth debugging (.box :: around) w := by
  refine ⟨h.indentSize_eq, h.debugging_eq, fun hdebugging => ?_⟩
  rw [List.count_cons_of_ne (by decide), h.depth_eq hdebugging]

theorem margin_eq (h : Amid indentSize depth debugging around w) :
    w.margin = Entry.margin indentSize depth debugging around := by
  obtain ⟨hsize, rfl, hdepth⟩ := h
  rw [Writer.margin, Entry.margin]
  split
  · rename_i hdebugging
    rw [hsize, hdepth hdebugging, Int.toNat_natCast, Int.toNat_natCast]
  · rfl

theorem println_eq (h : Amid indentSize depth debugging around w) :
    w.println message = w.write (textOf indentSize depth debugging [.printed around message]) := by
  rw [textOf_singleton, Entry.text, ← h.margin_eq]
  rfl

theorem trace_eq (h : Amid indentSize depth debugging around w) :
    w.trace message = w.write (textOf indentSize depth debugging [.traced around message]) := by
  rw [textOf_singleton, Entry.text, ← h.margin_eq, ← h.debugging_eq, trace]
  split
  · rfl
  · exact write_empty.symm

/-- **A script puts out its entries**, whatever it raises, and leaves the writer as it was
otherwise. -/
theorem run_eq (h : Amid indentSize depth debugging around w) (s : Script ε) :
    s.run w = (w.write (textOf indentSize depth debugging (s.entries around)), s.result) := by
  induction s generalizing around w with
  | skip | raise => exact congrArg (·, _) write_empty.symm
  | println message => exact congrArg (·, _) h.println_eq
  | trace message => exact congrArg (·, _) h.trace_eq
  | next first second ihfirst ihsecond =>
    rw [Script.run, ihfirst h, Script.entries, Script.result, textOf_append]
    cases first.result with
    | ok u =>
      simp only
      rw [ihsecond h.write, write_write]
    | error e =>
      simp only
      rw [textOf_nil, String.append_empty]
  | inside block body ih =>
    -- The body is run amid one block more, whatever becomes of it.
    cases block with
    | indented => exact inside_indented (ih h.indent)
    | box =>
      rw [Script.run, Writer.inside, enter, divide, ih h.box.write]
      simp only [leave, divide, write_write]
      rw [Script.entries, Script.result, textOf_cons, textOf_append, textOf_singleton,
        ← String.append_assoc]
      rfl
  | rescue body handler ihbody ihhandler =>
    rw [Script.run, ihbody h, Script.entries, Script.result, textOf_append]
    cases body.result with
    | ok u =>
      simp only
      rw [textOf_nil, String.append_empty]
    | error e =>
      simp only
      rw [ihhandler e h.write, write_write]

end Amid

end

/-- **The indentation follows the nesting.** Whatever a script does and raises, from any
depth on, the writer is at that depth again in the end. While debugging, each line has the
margin of the indented blocks around it, traces included; otherwise no line has a margin and
there are no traces. The division lines are in pairs, one box within another. -/
theorem run_nested (s : Script ε) (indentSize depth : Nat) (debugging : Bool) (text : String) :
    s.run ⟨indentSize, depth, debugging, text⟩ =
      (⟨indentSize, depth, debugging,
        text ++ String.join ((s.entries []).map (Entry.text indentSize depth debugging))⟩,
        s.result) ∧
    Paired (s.entries []) := by
  have hamid : Amid indentSize depth debugging [] ⟨indentSize, depth, debugging, text⟩ :=
    ⟨rfl, rfl, fun _ => rfl⟩
  exact ⟨hamid.run_eq s, (Enclosed.entries s []).paired⟩

/-- An error that leaves a level of depth and then a box. -/
example : ((Script.inside .box (.inside .indented (.next (.trace "a") (.raise ())))).run
    ⟨2, 1, true, ""⟩).1 = ⟨2, 1, true, divisionLine ++ "    a\n" ++ divisionLine⟩ := by
  decide +kernel

end Writer

end LoxForms
