/-!
# 256-bit words

A `Word` is the only value a program computes with: an unsigned integer below
`2 ^ 256`, held as four 64-bit limbs, least significant first.  Every operation
of the library works on the limbs themselves; `Word.toNat` is the one view
through which they are read as a number.

## Main definitions

* `Word`, `Word.toNat` — the limbs and the number they denote
* `Word.limb`, `Word.ofLimbs` — reading and building a word limb by limb
* `Word.cmp` — comparison from the most significant limb downward
-/

namespace WordMachine

/-- An unsigned 256-bit integer as four 64-bit limbs, least significant
first. -/
@[ext]
structure Word where
  limb0 : UInt64
  limb1 : UInt64
  limb2 : UInt64
  limb3 : UInt64
  deriving DecidableEq, Inhabited, Repr

namespace Word

/-- The number that the limbs denote in base `2 ^ 64`. -/
def toNat (w : Word) : Nat :=
  w.limb0.toNat + UInt64.size * (w.limb1.toNat + UInt64.size * (w.limb2.toNat
    + UInt64.size * w.limb3.toNat))

/-- The word with value `0`. -/
def zero : Word := ⟨0, 0, 0, 0⟩

/-- The word with value `1`. -/
def one : Word := ⟨1, 0, 0, 0⟩

/-- The largest word, `2 ^ 256 - 1`. -/
def max : Word := ⟨0 - 1, 0 - 1, 0 - 1, 0 - 1⟩

/-- A word whose value fits in its lowest limb. -/
def ofUInt64 (value : UInt64) : Word := ⟨value, 0, 0, 0⟩

/-- A word from the low 64 bits of a natural number, for values that are known
to be small. -/
def ofSmall (value : Nat) : Word := ofUInt64 (.ofNat value)

/-- A word from the low 128 bits of a natural number. -/
def ofWide (value : Nat) : Word :=
  ⟨.ofNat value, .ofNat (value / UInt64.size), 0, 0⟩

/-- `1` for a true condition and `0` for a false one. -/
def ofBool (condition : Bool) : Word := if condition then one else zero

/-- Limb `i`, counted from the least significant one; zero past the fourth. -/
def limb (w : Word) : Nat → UInt64
  | 0 => w.limb0
  | 1 => w.limb1
  | 2 => w.limb2
  | 3 => w.limb3
  | _ => 0

/-- The word whose limb `i` is `f i`. -/
def ofLimbs (f : Nat → UInt64) : Word := ⟨f 0, f 1, f 2, f 3⟩

/-- True exactly for the word with value `0`. -/
def isZero (w : Word) : Bool :=
  w.limb0 == 0 && w.limb1 == 0 && w.limb2 == 0 && w.limb3 == 0

/-- The order of two words, decided by the most significant limb in which they
differ. -/
def cmp (a b : Word) : Ordering :=
  (compare a.limb3 b.limb3).then <| (compare a.limb2 b.limb2).then <|
    (compare a.limb1 b.limb1).then (compare a.limb0 b.limb0)

/-- Whether `a` is below `b`. -/
def blt (a b : Word) : Bool := a.cmp b == .lt

/-- The smaller of two words. -/
def least (a b : Word) : Word := if b.blt a then b else a

/-- The larger of two words. -/
def greatest (a b : Word) : Word := if b.blt a then a else b

/-- The low 32 bits. -/
def lowUInt32 (w : Word) : UInt32 := w.limb0.toUInt32

/-- The value as a 64-bit integer, if it fits. -/
def toUInt64? (w : Word) : Option UInt64 :=
  if w.limb1 == 0 && w.limb2 == 0 && w.limb3 == 0 then some w.limb0 else none

/-- The value as a byte, if it fits. -/
def toUInt8? (w : Word) : Option UInt8 :=
  w.toUInt64?.bind fun v => if v ≤ 255 then some v.toUInt8 else none

/-- The value of the two lower limbs, if the two upper ones are zero. -/
def low128? (w : Word) : Option Nat :=
  if w.limb2 == 0 && w.limb3 == 0 then
    some (w.limb1.toNat * UInt64.size + w.limb0.toNat)
  else
    none

end Word

end WordMachine
