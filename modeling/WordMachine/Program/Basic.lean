import WordMachine.Fault

/-!
# Programs

A program holds sources of opcode and operand pairs, a pool of constants, and
two sizing hints for whoever allocates its stacks.

## Main definitions

* `Program` — the parts of a program
* `pairs` — the pairs of a source
* `Program.check` — the structural conditions that evaluation relies on
-/

namespace WordMachine

/-- A source: the bytes of its opcodes and operands. -/
abbrev Source := List UInt8

/-- A program. -/
@[ext]
structure Program where
  sources : List Source
  constants : List Word
  stackLength : UInt64 := 0
  argumentsLength : UInt64 := 0
  deriving DecidableEq, Inhabited

/-- The opcode and operand pairs of a source; half a pair at the end is left
out. -/
def pairs : Source → List (UInt8 × UInt8)
  | opcode :: operand :: rest => (opcode, operand) :: pairs rest
  | _ => []

/-- Whether a source consists of whole pairs. -/
def isWhole (source : Source) : Bool := source.length % 2 == 0

@[simp]
theorem isWhole_cons_cons (opcode operand : UInt8) (rest : Source) :
    isWhole (opcode :: operand :: rest) = isWhole rest := by
  simp [isWhole, Nat.add_assoc]

/-- The pairs of whole code come before those of the code after it. -/
theorem pairs_append {first : Source} (h : isWhole first) (second : Source) :
    pairs (first ++ second) = pairs first ++ pairs second := by
  fun_induction pairs first with
  | case1 opcode operand rest ih =>
    rw [isWhole_cons_cons] at h
    simp [pairs, ih h]
  | case2 source hshort =>
    match source with
    | [] => rfl
    | [_] => simp [isWhole] at h
    | a :: b :: rest => exact absurd rfl (hshort a b rest)

namespace Program

/-- The sources that some `ZIPMAP` of the program names. -/
def zipTargets (p : Program) : List Nat :=
  (p.sources.flatMap pairs).filterMap fun (opcode, operand) =>
    if opcode = Instruction.zipmap.opcode then some (Zip.decode operand).source.toNat else none

/-- Checks one pair of source `index`.  A constant past the pool reads the
argument frame, which exists only in sources that some `ZIPMAP` runs. -/
def checkPair (p : Program) (index : Nat) (pair : UInt8 × UInt8) : Except Fault Unit :=
  let (opcode, operand) := pair
  if opcode = Instruction.constant.opcode then
    if Fetch.goesPast operand p.constants.length && !p.zipTargets.contains index then
      .error (.invalidOperand ⟨.constant, operand,
        .constantOutOfRange operand index p.constants.length⟩)
    else .ok ()
  else if opcode = Instruction.zipmap.opcode then
    let target := (Zip.decode operand).source
    if p.sources.length ≤ target.toNat then
      .error (.invalidOperand ⟨.zipmap, operand,
        .sourceOutOfRange target index p.sources.length⟩)
    else .ok ()
  else .ok ()

/-- Checks the pairs of source `index` in order. -/
def checkPairs (p : Program) (index : Nat) : List (UInt8 × UInt8) → Except Fault Unit
  | [] => .ok ()
  | pair :: rest => do
    p.checkPair index pair
    p.checkPairs index rest

/-- Checks sources from `index` on. -/
def checkSources (p : Program) (index : Nat) : List Source → Except Fault Unit
  | [] => .ok ()
  | source :: rest => do
    if !isWhole source then
      .error (.truncatedSource index (source.length - 1))
    p.checkPairs index (pairs source)
    p.checkSources (index + 1) rest

/-- Checks that sources consist of whole pairs, that constants lie within the
pool and that `ZIPMAP` names sources that exist.  The first violation in the
order of the sources is reported. -/
def check (p : Program) : Except Fault Unit := p.checkSources 0 p.sources

end Program

end WordMachine
