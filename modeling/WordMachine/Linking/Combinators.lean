import WordMachine.Linking.Link
import WordMachine.Report

/-!
# Combinators

Each combinator takes programs that leave one value and yields a program that
leaves one value made from theirs.  It only ever links whole programs and
appends instructions.

## Main definitions

* `Combinator.value` — a program for a value
* `Combinator.sum`, `Combinator.conjunction`, `Combinator.equal`,
  `Combinator.conditional` and the others — arithmetic and logic
* `Combinator.during`, `Combinator.ownedBy` — gates
* `Combinator.discounted`, `Combinator.multiplied` — tier tables
-/

namespace WordMachine.Combinator

/-- The source of instructions with their operands. -/
def code (ops : List (Instruction × UInt8)) : Source :=
  ops.flatMap fun (instruction, operand) => [instruction.opcode, operand]

/-- A program of one source without constants and hints. -/
def tail (ops : List (Instruction × UInt8)) : Program := ⟨[code ops], [], 0, 0⟩

/-- The program followed by instructions in its first source. -/
def followedBy (p : Program) (ops : List (Instruction × UInt8)) : Except LinkError Program :=
  p.link (tail ops)

/-- A program that pushes a value. -/
def value (w : Word) : Program := ⟨[code [(.constant, 0)]], [w], 1, 0⟩

/-! ## Arithmetic and logic -/

/-- The operand of a window over the values of `count` programs. -/
def windowOver (instruction : Instruction) (count : Nat) : Except LinkError UInt8 :=
  if 0 < count ∧ count ≤ 255 then .ok (.ofNat count)
  else .error (.windowCount instruction count)

/-- All programs, and an instruction over the window of their values. -/
def reduce (programs : List Program) (instruction : Instruction) :
    Except LinkError Program := do
  let n ← windowOver instruction programs.length
  let all ← Program.linkAll programs true
  followedBy all [(instruction, n)]

/-- The sum. -/
def sum (programs : List Program) : Except LinkError Program := reduce programs .add

/-- The product. -/
def product (programs : List Program) : Except LinkError Program := reduce programs .mul

/-- The smallest value. -/
def least (programs : List Program) : Except LinkError Program := reduce programs .min

/-- The largest value. -/
def greatest (programs : List Program) : Except LinkError Program := reduce programs .max

/-- Zero if one of the values is, else the last. -/
def conjunction (programs : List Program) : Except LinkError Program := reduce programs .every

/-- The first value that is not zero, else zero. -/
def disjunction (programs : List Program) : Except LinkError Program := reduce programs .any

/-- Whether the value is zero. -/
def negation (p : Program) : Except LinkError Program := followedBy p [(.isZero, 0)]

/-- Whether some value is zero. -/
def nand (programs : List Program) : Except LinkError Program := do
  negation (← conjunction programs)

/-- Whether all values are zero. -/
def nor (programs : List Program) : Except LinkError Program := do
  negation (← disjunction programs)

/-- Two programs and instructions on their values. -/
def onPair (a b : Program) (ops : List (Instruction × UInt8)) : Except LinkError Program := do
  followedBy (← a.linkPair b true) ops

/-- Whether both or neither of the values are zero. -/
def xnor (a b : Program) : Except LinkError Program := do
  let a ← negation a
  let b ← negation b
  onPair a b [(.equalTo, 0)]

/-- Whether exactly one of the values is zero. -/
def xor (a b : Program) : Except LinkError Program := do
  negation (← xnor a b)

/-- Whether the values are equal. -/
def equal (a b : Program) : Except LinkError Program := onPair a b [(.equalTo, 0)]

/-- Whether the first value is larger. -/
def greater (a b : Program) : Except LinkError Program := onPair a b [(.greaterThan, 0)]

/-- Whether the first value is smaller. -/
def less (a b : Program) : Except LinkError Program := onPair a b [(.lessThan, 0)]

/-- Whether the first value is at least the second. -/
def atLeast (a b : Program) : Except LinkError Program :=
  onPair a b [(.lessThan, 0), (.isZero, 0)]

/-- Whether the first value is at most the second. -/
def atMost (a b : Program) : Except LinkError Program :=
  onPair a b [(.greaterThan, 0), (.isZero, 0)]

/-- The second value if the first is not zero, else the third.  All three
programs are evaluated. -/
def conditional (condition whenTrue whenFalse : Program) : Except LinkError Program := do
  followedBy (← Program.linkAll [condition, whenTrue, whenFalse] true) [(.eagerIf, 0)]

/-! ## Gates -/

/-- Whether the block's time fails a strict comparison with a bound. -/
def timeGate (comparison : Instruction) (bound : Word) : Program :=
  ⟨[code [(.blockTimestamp, 0), (.constant, 0), (comparison, 0), (.isZero, 0)]], [bound], 2, 0⟩

/-- The value while the block's time lies between the bounds, else zero.  A
missing bound is open. -/
def during (p : Program) (start stop : Option Word) : Except LinkError Program :=
  let gates := (start.map (timeGate .lessThan)).toList
    ++ (stop.map (timeGate .greaterThan)).toList
  if gates.isEmpty then .ok p
  else do conditional (← conjunction gates) p (value Word.zero)

/-- Whether the signer is a given account. -/
def ownerGate (owner : Address) : Program :=
  ⟨[code [(.sender, 0), (.constant, 0), (.equalTo, 0)]], [owner.toWord], 2, 0⟩

/-- The value if the signer is the owner, else the fallback. -/
def ownedBy (p : Program) (owner : Address) (fallback : Word) : Except LinkError Program :=
  conditional (ownerGate owner) p (value fallback)

/-! ## Tier tables -/

/-- The operand that reads argument `i`. -/
def argument (i : UInt8) : UInt8 := argumentFlag ||| i

/-- The source evaluated for each tier, with the table's entry and the
report's lane as arguments: the entry if the tier is held, else a constant. -/
def heldTier (otherwise : UInt8) : Source :=
  code [ (.constant, argument 1), (.constant, 3), (.lessThan, 0), (.constant, argument 0),
    (.constant, otherwise), (.eagerIf, 0) ]

/-- The operand that zips the table and the report, lane by lane, through
source 1. -/
def zipTiers : Except LinkError UInt8 := do
  let zip ← (Zip.ofLaneBits 1 32 2).mapError LinkError.operand
  zip.encode.mapError .operand

/-- The constants of a tier table: one hundred, the table, the contract, the
lane of a tier that was never held, and zero. -/
def tierConstants (table : Vector UInt32 8) (contract : Address) : List Word :=
  [ Word.ofSmall 100, Report.ofLanes table.toList, contract.toWord, Report.ofLane Report.never,
    Word.zero ]

/-- The value less the largest percentage of the table among the tiers that
the signer holds; entry `i` belongs to tier `i + 1`. -/
def discounted (p : Program) (contract : Address) (table : Vector UInt32 8) :
    Except LinkError Program := do
  if let some percent := table.toList.find? (100 < ·) then
    .error (.discount percent)
  let zip ← zipTiers
  let main := code [ (.constant, 0), (.constant, 1), (.constant, 2), (.sender, 0),
    (.tierReport, 0), (.zipmap, zip), (.max, 8), (.sub, 2), (.mul, 2), (.constant, 0),
    (.div, 2) ]
  p.link ⟨[main, heldTier 4], tierConstants table contract, 11, 2⟩

/-- The value scaled by the largest percentage of the table among the tiers
that the signer holds, and by one hundred for the others. -/
def multiplied (p : Program) (contract : Address) (table : Vector UInt32 8) :
    Except LinkError Program := do
  let zip ← zipTiers
  let main := code [ (.constant, 1), (.constant, 2), (.sender, 0), (.tierReport, 0),
    (.zipmap, zip), (.max, 8), (.mul, 2), (.constant, 0), (.div, 2) ]
  p.link ⟨[main, heldTier 0], tierConstants table contract, 10, 2⟩

end WordMachine.Combinator
