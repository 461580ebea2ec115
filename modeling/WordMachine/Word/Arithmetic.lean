import WordMachine.Word.Bits

/-!
# Arithmetic on words

Addition and subtraction ripple a carry through the four limbs, multiplication
is the schoolbook product into eight limbs, division subtracts the shifted
divisor digit by digit, and powers are taken by repeated squaring from the
most significant digit of the exponent.  Each operation comes in a form that
reports an overflow (`addCarry`), a form without a value when the exact result
is no word (`add?`) and, where that makes sense, a form that stops at the
nearest word (`addSat`).

## Main definitions

* `Word.addCarry`, `Word.subBorrow`, `Word.mulOverflow` — value and flag
* `Word.divMod?` — quotient and remainder
* `Word.pow?`, `Word.pow10?` — powers
-/

namespace WordMachine.Word

/-! ## Addition and subtraction -/

/-- One limb of a sum: both limbs, then the carry from below. -/
def addLimb (a b : UInt64) (carry : Bool) : UInt64 × Bool :=
  let partialSum := a + b
  let total := partialSum + carry.toUInt64
  (total, partialSum < a || total < partialSum)

/-- The sum modulo `2 ^ 256`, and whether it exceeded the largest word. -/
def addCarry (a b : Word) : Word × Bool :=
  let (s0, c0) := addLimb a.limb0 b.limb0 false
  let (s1, c1) := addLimb a.limb1 b.limb1 c0
  let (s2, c2) := addLimb a.limb2 b.limb2 c1
  let (s3, c3) := addLimb a.limb3 b.limb3 c2
  (⟨s0, s1, s2, s3⟩, c3)

/-- One limb of a difference: first the other limb, then the borrow from
below. -/
def subLimb (a b : UInt64) (borrow : Bool) : UInt64 × Bool :=
  let partialDiff := a - b
  let total := partialDiff - borrow.toUInt64
  (total, a < b || partialDiff < borrow.toUInt64)

/-- The difference modulo `2 ^ 256`, and whether it was negative. -/
def subBorrow (a b : Word) : Word × Bool :=
  let (d0, b0) := subLimb a.limb0 b.limb0 false
  let (d1, b1) := subLimb a.limb1 b.limb1 b0
  let (d2, b2) := subLimb a.limb2 b.limb2 b1
  let (d3, b3) := subLimb a.limb3 b.limb3 b2
  (⟨d0, d1, d2, d3⟩, b3)

/-- The difference modulo `2 ^ 256`. -/
def subWrap (a b : Word) : Word := (a.subBorrow b).1

/-- The exact sum, if it is a word. -/
def add? (a b : Word) : Option Word :=
  match a.addCarry b with
  | (value, false) => some value
  | (_, true) => none

/-- The exact difference, if it is not negative. -/
def sub? (a b : Word) : Option Word :=
  match a.subBorrow b with
  | (value, false) => some value
  | (_, true) => none

/-- The sum, or the largest word where the sum exceeds it. -/
def addSat (a b : Word) : Word := (a.add? b).getD max

/-- The difference, or zero where it is negative. -/
def subSat (a b : Word) : Word := (a.sub? b).getD zero

/-- The word with the low `n` binary digits set. -/
def lowMask (n : Nat) : Word :=
  if 256 ≤ n then max else (one.shiftLeft n).subWrap one

/-! ## Multiplication -/

/-- One cell of the schoolbook product: the old digit, the product of two
limbs and the carry from the cell below, before it is split into a digit and
the next carry. -/
def mulCell (digit a b : UInt64) (carry : Nat) : Nat :=
  digit.toNat + a.toNat * b.toNat + carry

/-- One row of the schoolbook product: `a * b` added to the four digits of
`row`, with the digit that is carried out. -/
def mulRow (a : UInt64) (b row : Word) : Word × UInt64 :=
  let t0 := mulCell row.limb0 a b.limb0 0
  let t1 := mulCell row.limb1 a b.limb1 (t0 / UInt64.size)
  let t2 := mulCell row.limb2 a b.limb2 (t1 / UInt64.size)
  let t3 := mulCell row.limb3 a b.limb3 (t2 / UInt64.size)
  (⟨.ofNat t0, .ofNat t1, .ofNat t2, .ofNat t3⟩, .ofNat (t3 / UInt64.size))

/-- The exact product as a low and a high word.  Each row consumes one limb of
`a` and settles one digit of the result. -/
def mulFull (a b : Word) : Word × Word :=
  let (r0, c0) := mulRow a.limb0 b zero
  let (r1, c1) := mulRow a.limb1 b ⟨r0.limb1, r0.limb2, r0.limb3, c0⟩
  let (r2, c2) := mulRow a.limb2 b ⟨r1.limb1, r1.limb2, r1.limb3, c1⟩
  let (r3, c3) := mulRow a.limb3 b ⟨r2.limb1, r2.limb2, r2.limb3, c2⟩
  (⟨r0.limb0, r1.limb0, r2.limb0, r3.limb0⟩, ⟨r3.limb1, r3.limb2, r3.limb3, c3⟩)

/-- The product modulo `2 ^ 256`, and whether it exceeded the largest word. -/
def mulOverflow (a b : Word) : Word × Bool :=
  let (low, high) := a.mulFull b
  (low, !high.isZero)

/-- The exact product, if it is a word. -/
def mul? (a b : Word) : Option Word :=
  match a.mulOverflow b with
  | (value, false) => some value
  | (_, true) => none

/-- The product, or the largest word where the product exceeds it. -/
def mulSat (a b : Word) : Word := (a.mul? b).getD max

/-! ## Division -/

/-- Long division in base two.  The `n` low digits of `a` are still to be
brought down; the state is the quotient so far and the running remainder.  The
digit that a shift pushes out of the remainder counts as a remainder above any
divisor. -/
def divideDigits (a b : Word) : Nat → Word × Word → Word × Word
  | 0, state => state
  | n + 1, (quotient, remainder) =>
    let carry := remainder.bit 255
    let shifted := remainder.shiftLeft 1
    let brought :=
      if a.bit n then { shifted with limb0 := shifted.limb0 ||| 1 } else shifted
    if carry || !brought.blt b then
      divideDigits a b n (quotient.setBit n, brought.subWrap b)
    else
      divideDigits a b n (quotient, brought)

/-- Quotient and remainder, or nothing for a zero divisor.  A smaller dividend
and two operands below `2 ^ 128` take short cuts. -/
def divMod? (a b : Word) : Option (Word × Word) :=
  if b.isZero then none
  else if a.blt b then some (zero, a)
  else
    match a.low128?, b.low128? with
    | some m, some n => some (ofWide (m / n), ofWide (m % n))
    | _, _ => some (divideDigits a b a.bits (zero, zero))

/-- The quotient, or nothing for a zero divisor. -/
def div? (a b : Word) : Option Word := (a.divMod? b).map Prod.fst

/-- The remainder, or nothing for a zero divisor. -/
def mod? (a b : Word) : Option Word := (a.divMod? b).map Prod.snd

/-- The quotient of one limb and the limbs above it by a 64-bit divisor. -/
def divCell (remainder : Nat) (limb divisor : UInt64) : UInt64 × Nat :=
  let current := remainder * UInt64.size + limb.toNat
  (.ofNat (current / divisor.toNat), current % divisor.toNat)

/-- Quotient and remainder by a non-zero 64-bit divisor, from the most
significant limb downward. -/
def divModSmall (w : Word) (divisor : UInt64) : Word × UInt64 :=
  let (q3, r3) := divCell 0 w.limb3 divisor
  let (q2, r2) := divCell r3 w.limb2 divisor
  let (q1, r1) := divCell r2 w.limb1 divisor
  let (q0, r0) := divCell r1 w.limb0 divisor
  (⟨q0, q1, q2, q3⟩, .ofNat r0)

/-! ## Powers -/

/-- Repeated squaring.  The `n` low digits of the exponent are still to be
consumed, most significant first, and `acc` is the power for the digits
already consumed. -/
def powDigits (base exponent : Word) : Nat → Word → Option Word
  | 0, acc => some acc
  | n + 1, acc => do
    let square ← acc.mul? acc
    let next ← if exponent.bit n then square.mul? base else some square
    powDigits base exponent n next

/-- The exact power, if it is a word; `0 ^ 0` is `1`. -/
def pow? (base exponent : Word) : Option Word :=
  if exponent.isZero then some one
  else if base.isZero || base == one then some base
  else powDigits base exponent exponent.bits one

/-- `10 ^ n`, if it is a word. -/
def pow10? (n : UInt32) : Option Word :=
  (ofSmall 10).pow? (ofUInt64 n.toUInt64)

end WordMachine.Word
