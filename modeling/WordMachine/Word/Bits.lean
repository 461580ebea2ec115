import WordMachine.Word.Basic

/-!
# Bits of a word

Shifts move whole limbs by the quotient of the distance by 64 and carry the
remaining distance across neighbouring limbs.  A distance of 256 or more
leaves zero.

## Main definitions

* `Word.shiftLeft`, `Word.shiftRight` — shifts by any distance
* `Word.bit`, `Word.setBit`, `Word.bits` — single binary digits and their count
* `Word.and`, `Word.or`, `Word.complement` — digit by digit
-/

namespace WordMachine.Word

/-- `w` moved up by `n` binary places; what leaves the top is lost. -/
def shiftLeft (w : Word) (n : Nat) : Word :=
  if n < 256 then
    let places := n / 64
    let within := UInt64.ofNat (n % 64)
    ofLimbs fun i =>
      if i < places then 0
      else
        let low := w.limb (i - places) <<< within
        if within > 0 && i > places then
          low ||| (w.limb (i - places - 1) >>> (64 - within))
        else low
  else zero

/-- `w` moved down by `n` binary places; what leaves the bottom is lost. -/
def shiftRight (w : Word) (n : Nat) : Word :=
  if n < 256 then
    let places := n / 64
    let within := UInt64.ofNat (n % 64)
    ofLimbs fun i =>
      let high := w.limb (i + places) >>> within
      if within > 0 && i + places + 1 < 4 then
        high ||| (w.limb (i + places + 1) <<< (64 - within))
      else high
  else zero

/-- Binary digit `n`, counted from the least significant one; false past the
last. -/
def bit (w : Word) (n : Nat) : Bool :=
  n < 256 && (w.limb (n / 64) >>> UInt64.ofNat (n % 64)) &&& 1 == 1

/-- `w` with binary digit `n` set. -/
def setBit (w : Word) (n : Nat) : Word :=
  ofLimbs fun i =>
    if i = n / 64 then w.limb i ||| (1 <<< UInt64.ofNat (n % 64)) else w.limb i

/-- The number of significant binary digits; zero has none. -/
def bits (w : Word) : Nat :=
  if w.limb3 ≠ 0 then 192 + (w.limb3.log2.toNat + 1)
  else if w.limb2 ≠ 0 then 128 + (w.limb2.log2.toNat + 1)
  else if w.limb1 ≠ 0 then 64 + (w.limb1.log2.toNat + 1)
  else if w.limb0 ≠ 0 then w.limb0.log2.toNat + 1
  else 0

/-- The digits set in both words. -/
def and (a b : Word) : Word :=
  ⟨a.limb0 &&& b.limb0, a.limb1 &&& b.limb1, a.limb2 &&& b.limb2,
    a.limb3 &&& b.limb3⟩

/-- The digits set in either word. -/
def or (a b : Word) : Word :=
  ⟨a.limb0 ||| b.limb0, a.limb1 ||| b.limb1, a.limb2 ||| b.limb2,
    a.limb3 ||| b.limb3⟩

/-- The digits not set in `w`. -/
def complement (w : Word) : Word :=
  ⟨~~~w.limb0, ~~~w.limb1, ~~~w.limb2, ~~~w.limb3⟩

end WordMachine.Word
