import WordMachine.Machine.Action
import WordMachine.Scale

/-!
# Arithmetic, logic and scaling instructions

An arithmetic instruction takes a window of values, starts from the deepest
and folds the others into it one by one, upward.

## Main definitions

* `Arithmetic` — the operations that are folded, with `Arithmetic.step`
* `Action.foldWindow` — folding a window
* `Action.anyOf`, `Action.everyOf`, `Action.choose`, `Action.compare` — logic
* `Action.scale`, `Action.scaleBinary` — fixed-point scaling
-/

namespace WordMachine

/-- The operations that are folded over a window. -/
inductive Arithmetic where
  | add
  | sub
  | mul
  | div
  | mod
  | exp
  | min
  | max
  | saturatingAdd
  | saturatingSub
  | saturatingMul
  deriving DecidableEq, Repr

namespace Arithmetic

/-- The instruction of an operation. -/
def instruction : Arithmetic → Instruction
  | .add => .add
  | .sub => .sub
  | .mul => .mul
  | .div => .div
  | .mod => .mod
  | .exp => .exp
  | .min => .min
  | .max => .max
  | .saturatingAdd => .saturatingAdd
  | .saturatingSub => .saturatingSub
  | .saturatingMul => .saturatingMul

/-- The name of an operation in faults. -/
def name (op : Arithmetic) : String := op.instruction.mnemonic

/-- A result that exists, or a fault. -/
def orFault (fault : Fault) : Option Word → Except Fault Word
  | some value => .ok value
  | none => .error fault

/-- One step of a fold: the result so far and the next value. -/
def step (op : Arithmetic) (acc value : Word) : Except Fault Word :=
  match op with
  | .add => orFault (.arithmeticOverflow op.name) (acc.add? value)
  | .sub => orFault (.negativeResult op.name) (acc.sub? value)
  | .mul => orFault (.arithmeticOverflow op.name) (acc.mul? value)
  | .div => orFault (.divisionByZero op.name) (acc.div? value)
  | .mod => orFault (.divisionByZero op.name) (acc.mod? value)
  | .exp => orFault (.arithmeticOverflow op.name) (acc.pow? value)
  | .min => .ok (acc.least value)
  | .max => .ok (acc.greatest value)
  | .saturatingAdd => .ok (acc.addSat value)
  | .saturatingSub => .ok (acc.subSat value)
  | .saturatingMul => .ok (acc.mulSat value)

/-- Folds values onto a result, up to the first fault. -/
def fold (op : Arithmetic) (acc : Word) : List Word → Except Fault Word
  | [] => .ok acc
  | value :: rest => do
    let next ← op.step acc value
    op.fold next rest

end Arithmetic

/-- The ways two values are compared. -/
inductive Comparison where
  | equal
  | greater
  | less
  deriving DecidableEq, Repr

/-- Whether a comparison holds of the deeper and the upper value. -/
def Comparison.holds : Comparison → Word → Word → Bool
  | .equal, a, b => a == b
  | .greater, a, b => b.blt a
  | .less, a, b => a.blt b

/-- The ways a value is rescaled. -/
inductive Rescaling where
  | to18
  | from18
  | byPower
  deriving DecidableEq, Repr

/-- The rescaled value; the operand gives decimals or a signed exponent. -/
def Rescaling.apply : Rescaling → Word → UInt8 → Except Fault Word
  | .to18, value, operand => Scale.to18 value operand
  | .from18, value, operand => Scale.from18 value operand
  | .byPower, value, operand => Scale.byPower value operand.toInt8

namespace Action

/-- Folds a window of values into one. -/
def foldWindow (op : Arithmetic) (operand : UInt8) : Action Unit := do
  let n ← ofOperand (windowSize op.instruction operand)
  let (first, rest) ← popWindow n
  let value ← ofExcept (op.fold first rest)
  push value

/-- The first value that is not zero, or zero. -/
def firstNonZero (values : List Word) : Word :=
  (values.find? fun v => !v.isZero).getD Word.zero

/-- Zero if one of the values is, else the last. -/
def lastUnlessZero (first : Word) (rest : List Word) : Word :=
  if (first :: rest).any Word.isZero then Word.zero else rest.getLast?.getD first

/-- Replaces a window by its first value that is not zero. -/
def anyOf (operand : UInt8) : Action Unit := do
  let n ← ofOperand (windowSize .any operand)
  let (first, rest) ← popWindow n
  push (firstNonZero (first :: rest))

/-- Replaces a window by zero if it holds one, else by its last value. -/
def everyOf (operand : UInt8) : Action Unit := do
  let n ← ofOperand (windowSize .every operand)
  let (first, rest) ← popWindow n
  push (lastUnlessZero first rest)

/-- Chooses between two values by a condition below them. -/
def choose : Action Unit := do
  let (condition, whenTrue, whenFalse) ← popTriple
  push (if condition.isZero then whenFalse else whenTrue)

/-- Replaces two values by whether a comparison holds of them. -/
def compare (c : Comparison) : Action Unit := do
  let (a, b) ← popPair
  push (Word.ofBool (c.holds a b))

/-- Replaces a value by whether it is zero. -/
def testZero : Action Unit := do
  let a ← pop
  push (Word.ofBool a.isZero)

/-- Rescales a value. -/
def scale (r : Rescaling) (operand : UInt8) : Action Unit := do
  let value ← pop
  let scaled ← ofExcept (r.apply value operand)
  push scaled

/-- Rescales the deeper of two values to 18 decimals and combines them. -/
def scaleBinary (combine : Word → Word → Except Fault Word) (operand : UInt8) :
    Action Unit := do
  let (a, b) ← popPair
  let scaled ← ofExcept (Scale.to18 a operand)
  let value ← ofExcept (combine scaled b)
  push value

end Action

end WordMachine
