import WordMachine.Instruction
import WordMachine.Text.Numeral
import WordMachine.Word.Text

/-!
# Operand bytes

Several instructions pack more than one field into their operand byte.  Each
such operand has a type of its own with a `decode` from the byte and an
`encode` back to it; evaluating, linking and assembling all go through these.

## Main definitions

* `Fetch` — what `CONSTANT` reads
* `Zip` — the fields of `ZIPMAP`
* `Selection` — the fields of `SELECT_LTE`
* `TierRange` — the fields of `UPDATE_TIMES_FOR_TIER_RANGE`
* `Inspection` — what `DEBUG` logs
* `windowSize` — the number of values an arithmetic instruction folds
* `OperandError` — an operand byte that is refused, and why
-/

namespace WordMachine

/-! ## Refused operands -/

/-- Why an operand is refused. -/
inductive OperandCause where
  | emptyWindow
  | constantIndex
  | zipSource
  | zipSelector
  | zipValues
  | laneWidth (bits : UInt16)
  | valueCount
  | undefinedMode
  | noReports
  | reportCount
  | tierBound
  | inspection
  | nesting
  | tierOutside (tier : Word)
  | constantOutOfRange (operand : UInt8) (source pool : Nat)
  | sourceOutOfRange (target : UInt8) (source available : Nat)
  deriving DecidableEq, Repr

/-- The wording of a cause. -/
def OperandCause.message : OperandCause → String
  | .emptyWindow => "window of zero values"
  | .constantIndex => "index exceeds 127"
  | .zipSource => "source index exceeds 7"
  | .zipSelector => "lane selector exceeds 3"
  | .zipValues => "more than 8 values"
  | .laneWidth bits =>
    "lane width " ++ Text.decimal bits.toNat ++ " is not one of 256, 128, 64, 32"
  | .valueCount => "value count must be 1..=8"
  | .undefinedMode => "mode 3 is undefined"
  | .noReports => "zero reports selected"
  | .reportCount => "report count must be 1..=31"
  | .tierBound => "tiers must be within 0..=8"
  | .inspection => "expected 0 (state), 1 (stack), 2 (constants) or 3 (arguments)"
  | .nesting => "more than 8 nested frames"
  | .tierOutside tier => "tier " ++ tier.decimal ++ " outside 1..=8"
  | .constantOutOfRange operand source pool =>
    "constant " ++ Text.decimal operand.toNat ++ " out of range in source "
      ++ Text.decimal source ++ " (" ++ Text.decimal pool ++ " constant(s))"
  | .sourceOutOfRange target source available =>
    "sub-source " ++ Text.decimal target.toNat ++ " out of range in source "
      ++ Text.decimal source ++ " (" ++ Text.decimal available ++ " source(s))"

/-- An operand byte, or a field of one, that an instruction refuses. -/
structure OperandError where
  instruction : Instruction
  operand : UInt8
  cause : OperandCause
  deriving DecidableEq, Repr

/-- The wording of a refusal; the operand is written with two hexadecimal
digits. -/
def OperandError.message (e : OperandError) : String :=
  e.instruction.mnemonic ++ ": invalid operand 0x"
    ++ String.ofList (Text.hexText [e.operand]) ++ ": " ++ e.cause.message

/-! ## `CONSTANT` -/

/-- The bit of a `CONSTANT` operand that selects the argument frame. -/
def argumentFlag : UInt8 := 0x80

/-- The largest index a `CONSTANT` operand can name. -/
def maxConstantIndex : Nat := 127

/-- What a `CONSTANT` operand reads. -/
inductive Fetch where
  /-- An entry of the constant pool. -/
  | constant (index : UInt8)
  /-- A value of the innermost argument frame. -/
  | argument (index : UInt8)
  deriving DecidableEq, Repr

namespace Fetch

/-- The flagged operands read arguments and the others constants. -/
def decode (operand : UInt8) : Fetch :=
  if operand &&& argumentFlag ≠ 0 then .argument (operand &&& 0x7f)
  else .constant operand

/-- Reads an operand against a pool of a given size.  An un-flagged index past
the pool goes on into the argument frame. -/
def resolve (operand : UInt8) (pool : Nat) : Fetch :=
  match decode operand with
  | .constant i => if pool ≤ i.toNat then .argument (.ofNat (i.toNat - pool)) else .constant i
  | .argument i => .argument i

/-- Whether an un-flagged operand goes past a pool of the given size. -/
def goesPast (operand : UInt8) (pool : Nat) : Bool :=
  operand &&& argumentFlag == 0 && pool ≤ operand.toNat

/-- The operand byte of a read. -/
def encode : Fetch → Except OperandError UInt8
  | .constant i => if maxConstantIndex < i.toNat then refuse i else .ok i
  | .argument i => if maxConstantIndex < i.toNat then refuse i else .ok (i ||| argumentFlag)
where
  refuse (i : UInt8) : Except OperandError UInt8 := .error ⟨.constant, i, .constantIndex⟩

end Fetch

/-! ## `ZIPMAP` -/

/-- The largest source index a `ZIPMAP` operand can name. -/
def maxZipSource : Nat := 7

/-- The fields of a `ZIPMAP` operand: the source in the three low bits, the
lane selector in the next two, and the number of values beyond the first in
the three high bits. -/
structure Zip where
  source : UInt8
  selector : UInt8
  extraValues : UInt8
  deriving DecidableEq, Repr

namespace Zip

/-- The fields of an operand byte. -/
def decode (operand : UInt8) : Zip where
  source := operand &&& 0x07
  selector := (operand >>> 3) &&& 0x03
  extraValues := operand >>> 5

/-- The operand byte of fields that fit. -/
def encode (z : Zip) : Except OperandError UInt8 :=
  if maxZipSource < z.source.toNat then .error ⟨.zipmap, z.source, .zipSource⟩
  else if 3 < z.selector then .error ⟨.zipmap, z.selector, .zipSelector⟩
  else if 7 < z.extraValues then .error ⟨.zipmap, z.extraValues, .zipValues⟩
  else .ok (z.source ||| (z.selector <<< 3) ||| (z.extraValues <<< 5))

/-- The selector of a lane width in bits. -/
def selectorOf? (laneBits : UInt16) : Option UInt8 :=
  if laneBits = 256 then some 0
  else if laneBits = 128 then some 1
  else if laneBits = 64 then some 2
  else if laneBits = 32 then some 3
  else none

/-- The fields for a source, a lane width and a total number of values. -/
def ofLaneBits (source : UInt8) (laneBits : UInt16) (count : UInt8) :
    Except OperandError Zip := do
  let some selector := selectorOf? laneBits
    | .error ⟨.zipmap, 0, .laneWidth laneBits⟩
  if count < 1 ∨ 8 < count then
    .error ⟨.zipmap, count, .valueCount⟩
  let fields : Zip := ⟨source, selector, count - 1⟩
  let _ ← fields.encode
  return fields

/-- The number of lanes of each value, one evaluation for each. -/
def lanes (z : Zip) : Nat := 1 <<< z.selector.toNat

/-- The width of a lane. -/
def laneBits (z : Zip) : Nat := 256 >>> z.selector.toNat

/-- The number of values popped. -/
def valueCount (z : Zip) : Nat := z.extraValues.toNat + 1

end Zip

/-! ## `SELECT_LTE` -/

/-- Which reports must qualify in a lane. -/
inductive SelectLogic where
  | every
  | any
  deriving DecidableEq, Repr

/-- Which of the qualifying values of a lane is taken; `first` is the last one
scanned. -/
inductive SelectMode where
  | min
  | max
  | first
  deriving DecidableEq, Repr

/-- The fields of a `SELECT_LTE` operand: the logic in the high bit, the mode
in the next two, and the number of reports in the five low bits. -/
structure Selection where
  logic : SelectLogic
  mode : SelectMode
  count : UInt8
  deriving DecidableEq, Repr

namespace Selection

/-- The mode with the given two bits. -/
def modeOf? (field : UInt8) : Option SelectMode :=
  if field = 0 then some .min
  else if field = 1 then some .max
  else if field = 2 then some .first
  else none

/-- The fields of an operand byte. -/
def decode (operand : UInt8) : Except OperandError Selection :=
  let logic := if operand &&& 0x80 = 0 then SelectLogic.every else .any
  match modeOf? ((operand >>> 5) &&& 0x03) with
  | none => .error ⟨.selectLte, operand, .undefinedMode⟩
  | some mode =>
    let count := operand &&& 0x1f
    if count = 0 then .error ⟨.selectLte, operand, .noReports⟩
    else .ok ⟨logic, mode, count⟩

/-- The bit of a logic. -/
def logicField : SelectLogic → UInt8
  | .every => 0
  | .any => 0x80

/-- The two bits of a mode. -/
def modeField : SelectMode → UInt8
  | .min => 0
  | .max => 1
  | .first => 2

/-- The operand byte of fields that fit. -/
def encode (s : Selection) : Except OperandError UInt8 :=
  if s.count = 0 ∨ 0x1f < s.count then .error ⟨.selectLte, s.count, .reportCount⟩
  else .ok (logicField s.logic ||| (modeField s.mode <<< 5) ||| s.count)

end Selection

/-! ## `UPDATE_TIMES_FOR_TIER_RANGE` -/

/-- The fields of a tier range: the tier below the range in the low nibble,
and the last tier of the range in the high one. -/
structure TierRange where
  start : UInt8
  stop : UInt8
  deriving DecidableEq, Repr

namespace TierRange

/-- A range whose bounds are tiers, or zero. -/
def ofBounds (start stop : UInt8) : Except OperandError TierRange :=
  if 8 < start ∨ 8 < stop then
    .error ⟨.updateTimesForTierRange, if stop < start then start else stop, .tierBound⟩
  else .ok ⟨start, stop⟩

/-- The fields of an operand byte. -/
def decode (operand : UInt8) : Except OperandError TierRange :=
  match ofBounds (operand &&& 0x0f) (operand >>> 4) with
  | .ok range => .ok range
  | .error _ => .error ⟨.updateTimesForTierRange, operand, .tierBound⟩

/-- The operand byte. -/
def encode (r : TierRange) : UInt8 := r.start ||| (r.stop <<< 4)

/-- The lanes of the range, from the first one to before the second. -/
def laneBounds (r : TierRange) : Nat × Nat :=
  if r.stop ≤ r.start then (0, 0) else (r.start.toNat, r.stop.toNat)

end TierRange

/-! ## `DEBUG` and windows -/

/-- The part of a machine that `DEBUG` logs. -/
inductive Inspection where
  | state
  | stack
  | constants
  | arguments
  deriving DecidableEq, Repr

namespace Inspection

/-- The part with the given number. -/
def decode (operand : UInt8) : Except OperandError Inspection :=
  if operand = 0 then .ok .state
  else if operand = 1 then .ok .stack
  else if operand = 2 then .ok .constants
  else if operand = 3 then .ok .arguments
  else .error ⟨.debug, operand, .inspection⟩

/-- The number of a part. -/
def encode : Inspection → UInt8
  | .state => 0
  | .stack => 1
  | .constants => 2
  | .arguments => 3

end Inspection

/-- The number of values that a window instruction folds; it is not zero. -/
def windowSize (instruction : Instruction) (operand : UInt8) : Except OperandError Nat :=
  if operand = 0 then .error ⟨instruction, operand, .emptyWindow⟩
  else .ok operand.toNat

end WordMachine
