import WordMachine.Fault
import WordMachine.Word.Arithmetic

/-!
# Fixed-point scaling

Amounts are fixed-point numbers with 18 decimals.  Scaling up multiplies by a
power of ten and can exceed the largest word; scaling down divides and drops
what is left over, also where the power itself is no word.

## Main definitions

* `Scale.to18`, `Scale.from18`, `Scale.byPower` — rescaling
* `Scale.multiply`, `Scale.divide` — fixed-point product and quotient
-/

namespace WordMachine.Scale

/-- The decimals of a fixed-point number. -/
def decimals : UInt8 := 18

/-- The fixed-point number one. -/
def unit : Word := Word.ofSmall 1000000000000000000

/-- The value divided by a power of ten.  A power that is no word exceeds every
value. -/
def dividePower (value : Word) (n : UInt32) : Word :=
  match Word.pow10? n with
  | some divisor => (value.div? divisor).getD Word.zero
  | none => Word.zero

/-- The value multiplied by a power of ten.  Zero stays zero under every
power. -/
def multiplyPower (operation : String) (value : Word) (n : UInt32) : Except Fault Word :=
  if value.isZero then .ok Word.zero
  else
    match (Word.pow10? n).bind (value.mul? ·) with
    | some product => .ok product
    | none => .error (.arithmeticOverflow operation)

/-- A value with the given decimals, rescaled to 18. -/
def to18 (value : Word) (places : UInt8) : Except Fault Word :=
  if places = decimals then .ok value
  else if places < decimals then
    multiplyPower Instruction.scale18.mnemonic value (decimals - places).toUInt32
  else .ok (dividePower value (places - decimals).toUInt32)

/-- A value with 18 decimals, rescaled to the given ones. -/
def from18 (value : Word) (places : UInt8) : Except Fault Word :=
  if places = decimals then .ok value
  else if places < decimals then .ok (dividePower value (decimals - places).toUInt32)
  else multiplyPower Instruction.scaleN.mnemonic value (places - decimals).toUInt32

/-- The value times ten to the power of a signed exponent. -/
def byPower (value : Word) (exponent : Int8) : Except Fault Word :=
  if 0 ≤ exponent.toInt then
    multiplyPower Instruction.scaleBy.mnemonic value (.ofNat exponent.toInt.natAbs)
  else .ok (dividePower value (.ofNat exponent.toInt.natAbs))

/-- The fixed-point product `a * b / 10 ^ 18`. -/
def multiply (a b : Word) : Except Fault Word :=
  match a.mul? b with
  | none => .error (.arithmeticOverflow Instruction.scale18Mul.mnemonic)
  | some product => .ok ((product.div? unit).getD Word.zero)

/-- The quotient `a * one / b` of numbers that are counted in parts of `one`. -/
def divideIn (one a b : Word) : Except Fault Word :=
  match a.mul? one with
  | none => .error (.arithmeticOverflow Instruction.scale18Div.mnemonic)
  | some scaled =>
    match scaled.div? b with
    | none => .error (.divisionByZero Instruction.scale18Div.mnemonic)
    | some quotient => .ok quotient

/-- The fixed-point quotient `a * 10 ^ 18 / b`. -/
def divide (a b : Word) : Except Fault Word := divideIn unit a b

end WordMachine.Scale
