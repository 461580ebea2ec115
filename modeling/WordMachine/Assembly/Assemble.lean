import WordMachine.Assembly.Line
import WordMachine.Program.Basic

/-!
# Assembling

The lines of a text are read one after the other into a draft of the program.
Statements become pairs of the source that is open; a literal becomes a
constant when it first occurs and is referred to after that.  Sources are
opened in order, and what stands before the first marker belongs to source 0.

## Main definitions

* `Assembly.Draft`, `Assembly.Draft.add` — the program so far
* `Assembly.assemble` — the program of a text
-/

namespace WordMachine.Assembly

/-- The program so far. -/
structure Draft where
  /-- The sources that are complete. -/
  earlier : List Source := []
  /-- The source that is open. -/
  current : Source := []
  /-- The number of markers so far. -/
  markers : Nat := 0
  constants : List Word := []
  /-- The number of statements so far. -/
  statements : Nat := 0
  /-- The least number of arguments that the statements so far need. -/
  arguments : Nat := 0
  stackLength : Option UInt64 := none
  argumentsLength : Option UInt64 := none

namespace Draft

/-- Adds a pair to the open source. -/
def emit (d : Draft) (opcode operand : UInt8) : Draft :=
  { d with current := d.current ++ [opcode, operand], statements := d.statements + 1 }

/-- Opens the next source.  The first marker keeps what stands before it. -/
def openNext (d : Draft) : Draft :=
  if d.markers = 0 then { d with markers := 1 }
  else
    { d with earlier := d.earlier ++ [d.current], current := [], markers := d.markers + 1 }

/-- The index of a literal in the pool, and the pool with the literal in it;
nothing if the pool is full. -/
def intern? (constants : List Word) (literal : Word) : Option (Nat × List Word) :=
  match constants.idxOf? literal with
  | some index => some (index, constants)
  | none =>
    if maxConstantIndex < constants.length then none
    else some (constants.length, constants ++ [literal])

/-- Adds what line `number` says. -/
def add (d : Draft) (number : Nat) : Line → Except Error Draft
  | .blank => .ok d
  | .marker index =>
    if index.toNat = d.markers then .ok d.openNext
    else .error ⟨number, 1, .sourceOrder d.markers index.toNat⟩
  | .stackLength hint => .ok { d with stackLength := some hint }
  | .argumentsLength hint => .ok { d with argumentsLength := some hint }
  | .value literal column =>
    match intern? d.constants literal with
    | some (index, constants) =>
      .ok ({ d with constants := constants }.emit Instruction.constant.opcode (.ofNat index))
    | none => .error ⟨number, column, .poolFull⟩
  | .argument index operand =>
    .ok ({ d with arguments := max d.arguments (index.toNat + 1) }.emit
      Instruction.constant.opcode operand)
  | .pair opcode operand => .ok (d.emit opcode operand)

/-- Adds the lines from line `number` on, up to the first error. -/
def addLines (d : Draft) (number : Nat) : List (List Char) → Except Error Draft
  | [] => .ok d
  | line :: rest => do
    let said ← readLine number line
    let next ← d.add number said
    next.addLines (number + 1) rest

/-- The finished program.  Hints that no line sets are the number of
statements and the number of arguments. -/
def finish (d : Draft) : Program where
  sources := d.earlier ++ [d.current]
  constants := d.constants
  stackLength := d.stackLength.getD (.ofNat d.statements)
  argumentsLength := d.argumentsLength.getD (.ofNat d.arguments)

end Draft

/-- The program of a text. -/
def assemble (text : String) : Except Error Program := do
  let draft ← ({} : Draft).addLines 1 (Text.lines text.toList)
  return draft.finish

end WordMachine.Assembly
