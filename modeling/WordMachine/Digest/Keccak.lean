/-!
# The Keccak permutation

The state is twenty-five 64-bit lanes, lane `x + 5 * y` standing at column `x`
and row `y`.  A round mixes the columns, rotates each lane and moves it to its
new place, combines each lane with its two neighbours in the row, and adds a
round constant.

## Main definitions

* `Keccak.round`, `Keccak.permute` — one round and all twenty-four
-/

namespace WordMachine.Keccak

/-- Twenty-five lanes; lanes that are missing count as zero. -/
abbrev State := Array UInt64

/-- The lane at column `x` and row `y`. -/
def lane (s : State) (x y : Nat) : UInt64 := s.getD (x % 5 + 5 * (y % 5)) 0

/-- The state whose lane at column `x` and row `y` is `f x y`. -/
def build (f : Nat → Nat → UInt64) : State :=
  Array.ofFn fun i : Fin 25 => f (i.val % 5) (i.val / 5)

/-- The state of zero lanes. -/
def zero : State := build fun _ _ => 0

/-- A lane rotated up by `n` places. -/
def rotate (v : UInt64) (n : UInt64) : UInt64 := (v <<< n) ||| (v >>> (64 - n))

/-- How far each lane is rotated. -/
def rotations : Array UInt64 :=
  #[0, 1, 62, 28, 27, 36, 44, 6, 55, 20, 3, 10, 43, 25, 39, 41, 45, 15, 21, 8, 18, 2, 61, 56, 14]

/-- The constants added by the successive rounds. -/
def roundConstants : List UInt64 :=
  [ 0x0000000000000001, 0x0000000000008082, 0x800000000000808A, 0x8000000080008000,
    0x000000000000808B, 0x0000000080000001, 0x8000000080008081, 0x8000000000008009,
    0x000000000000008A, 0x0000000000000088, 0x0000000080008009, 0x000000008000000A,
    0x000000008000808B, 0x800000000000008B, 0x8000000000008089, 0x8000000000008003,
    0x8000000000008002, 0x8000000000000080, 0x000000000000800A, 0x800000008000000A,
    0x8000000080008081, 0x8000000000008080, 0x0000000080000001, 0x8000000080008008 ]

/-- Adds to each lane the parities of the columns beside it. -/
def mixColumns (s : State) : State :=
  let parity : Array UInt64 := Array.ofFn fun x : Fin 5 =>
    lane s x 0 ^^^ lane s x 1 ^^^ lane s x 2 ^^^ lane s x 3 ^^^ lane s x 4
  build fun x y =>
    lane s x y ^^^ parity.getD ((x + 4) % 5) 0 ^^^ rotate (parity.getD ((x + 1) % 5) 0) 1

/-- Rotates each lane and moves it to its new place. -/
def scatter (s : State) : State :=
  let turned : State := build fun x y => rotate (lane s x y) (rotations.getD (x + 5 * y) 0)
  build fun x y => lane turned (x + 3 * y) x

/-- Combines each lane with the next two of its row. -/
def mixRows (s : State) : State :=
  build fun x y => lane s x y ^^^ (~~~(lane s (x + 1) y) &&& lane s (x + 2) y)

/-- One round. -/
def round (s : State) (constant : UInt64) : State :=
  let mixed := mixRows (scatter (mixColumns s))
  mixed.setIfInBounds 0 (lane mixed 0 0 ^^^ constant)

/-- The twenty-four rounds. -/
def permute (s : State) : State := roundConstants.foldl round s

end WordMachine.Keccak
