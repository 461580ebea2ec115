import WordMachine.Program.Basic

/-!
# The machine

A machine holds the value stack, the argument frames of the running `ZIPMAP`
iterations, and copies of the program's constants and sources.  The frames
share one flat store: a frame is where its values start, and it ends where the
next frame starts.

## Main definitions

* `Machine`, `Machine.ofProgram`, `Machine.reset` — machines and their start
* `Machine.top`, `Machine.below` — the two parts of a stack
* `Machine.openFrame`, `Machine.closeFrame`, `Machine.currentFrame` — frames
-/

namespace WordMachine

/-- The nesting of `ZIPMAP` that is still allowed to go on. -/
def maxDepth : Nat := 8

/-- The state of an evaluation. -/
@[ext]
structure Machine where
  /-- The value stack, bottom first. -/
  stack : List Word
  /-- The values of all open frames, outermost first. -/
  arguments : List Word
  /-- Where each open frame starts in `arguments`, innermost first. -/
  frames : List Nat
  constants : List Word
  sources : List Source
  stackLength : UInt64
  argumentsLength : UInt64
  deriving DecidableEq

namespace Machine

/-- A machine for a program, with nothing on its stacks. -/
def ofProgram (p : Program) : Machine where
  stack := []
  arguments := []
  frames := []
  constants := p.constants
  sources := p.sources
  stackLength := p.stackLength
  argumentsLength := p.argumentsLength

/-- The machine with nothing on its stacks. -/
def reset (m : Machine) : Machine := { m with stack := [], arguments := [], frames := [] }

/-- The height of the stack. -/
def height (m : Machine) : Nat := m.stack.length

/-- The top `n` values, deepest first; all values if there are fewer. -/
def top (m : Machine) (n : Nat) : List Word := m.stack.drop (m.height - n)

/-- The values below the top `n`. -/
def below (m : Machine) (n : Nat) : List Word := m.stack.take (m.height - n)

/-- The machine with the top `n` values removed. -/
def dropTop (m : Machine) (n : Nat) : Machine := { m with stack := m.below n }

/-- The machine with values added on top, the last one uppermost. -/
def pushAll (m : Machine) (values : List Word) : Machine :=
  { m with stack := m.stack ++ values }

/-- The two parts of a stack make up the whole. -/
theorem below_append_top (m : Machine) (n : Nat) : m.below n ++ m.top n = m.stack :=
  List.take_append_drop _ _

/-- On a stack that is high enough, the top part has the wanted height. -/
theorem length_top {m : Machine} {n : Nat} (h : n ≤ m.height) : (m.top n).length = n := by
  simp only [top, List.length_drop]
  rw [height] at h ⊢
  omega

/-- The number of open frames. -/
def depth (m : Machine) : Nat := m.frames.length

/-- The values of the innermost open frame. -/
def currentFrame (m : Machine) : List Word := m.arguments.drop (m.frames.headD 0)

/-- Opens a frame with the given values. -/
def openFrame (m : Machine) (values : List Word) : Machine :=
  { m with
    frames := m.arguments.length :: m.frames
    arguments := m.arguments ++ values }

/-- Closes the innermost frame, if one is open. -/
def closeFrame (m : Machine) : Machine :=
  match m.frames with
  | [] => m
  | base :: outer => { m with frames := outer, arguments := m.arguments.take base }

/-- Closing a frame right after opening it leaves the machine as it was. -/
@[simp]
theorem closeFrame_openFrame (m : Machine) (values : List Word) :
    (m.openFrame values).closeFrame = m := by
  simp [openFrame, closeFrame]

/-- A frame that was just opened holds its values. -/
@[simp]
theorem currentFrame_openFrame (m : Machine) (values : List Word) :
    (m.openFrame values).currentFrame = values := by
  simp [openFrame, currentFrame]

/-- Entry `index` of a list of values, or the fault of reading past its end.  The number of
values that were needed is a number of 64 bits, as the index is, and so it is zero for the
largest index. -/
def fetch (values : List Word) (index : UInt64) : Except Fault Word :=
  match values[index.toNat]? with
  | some value => .ok value
  | none => .error (.stackUnderflow (index + 1).toNat values.length)

/-- Stack value `index`, counted from the bottom. -/
def stackAt (m : Machine) (index : UInt64) : Except Fault Word := fetch m.stack index

/-- Constant `index`. -/
def constant (m : Machine) (index : UInt64) : Except Fault Word := fetch m.constants index

/-- Value `index` of the innermost frame. -/
def argument (m : Machine) (index : UInt64) : Except Fault Word := fetch m.currentFrame index

end Machine

end WordMachine
