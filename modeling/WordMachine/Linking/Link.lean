import WordMachine.Program.Basic

/-!
# Linking programs

Linking appends one program to another.  Its leading sources are merged into
sources of the base, the others become new sources after those of the base,
and its constants follow those of the base.  So every reference of the
appended program is moved: constants by the size of the base pool, `ZIPMAP`
sources to where they went.  A constant read that goes past its own pool is
first turned into the flagged form, which means the same under any pool.

## Main definitions

* `LinkOptions`, `LinkError` — where to merge, and why it is impossible
* `Program.link` — linking two programs
* `Program.shiftStack` — moving a program up the stack
* `Program.linkPair`, `Program.linkAll` — programs that leave their values one
  after the other
-/

namespace WordMachine

/-- Where the leading sources of the appended program go. -/
structure LinkOptions where
  /-- The first source of the base that is merged into. -/
  spliceAt : Nat := 0
  /-- The number of sources that are merged. -/
  merged : Nat := 1
  /-- The byte offsets to insert at, one for each merged source; without them
  code is appended. -/
  positions : Option (List Nat) := none
  deriving DecidableEq, Repr

/-- Why programs cannot be linked. -/
inductive LinkError where
  | truncatedSource (source bytes : Nat)
  | missingSources (wanted available : Nat)
  | spliceOutside (spliceAt merged available : Nat)
  | positionCount (given merged : Nat)
  | constantIndex (index : UInt8) (source moved : Nat)
  | zipSource (target source moved : Nat)
  | position (offset source bytes : Nat)
  | stackIndex (index : UInt8) (source offset : Nat)
  | noPrograms
  | windowCount (instruction : Instruction) (count : Nat)
  | discount (percent : UInt32)
  | operand (error : OperandError)
  deriving DecidableEq, Repr

/-- The cause of a linking error in words. -/
def LinkError.reason : LinkError → String
  | .truncatedSource source bytes =>
    "source " ++ Text.decimal source ++ " is truncated (" ++ Text.decimal bytes ++ " bytes)"
  | .missingSources wanted available =>
    "cannot merge " ++ Text.decimal wanted ++ " source(s) from a program with "
      ++ Text.decimal available
  | .spliceOutside spliceAt merged available =>
    "splice at " ++ Text.decimal spliceAt ++ " of " ++ Text.decimal merged
      ++ " source(s) runs past the " ++ Text.decimal available ++ " base source(s)"
  | .positionCount given merged =>
    Text.decimal given ++ " position(s) given for " ++ Text.decimal merged
      ++ " merged source(s)"
  | .constantIndex index source moved =>
    "constant " ++ Text.decimal index.toNat ++ " of source " ++ Text.decimal source
      ++ " relocates to " ++ Text.decimal moved ++ ", past " ++ Text.decimal maxConstantIndex
  | .zipSource target source moved =>
    "zipmap sub-source " ++ Text.decimal target ++ " of source " ++ Text.decimal source
      ++ " relocates to " ++ Text.decimal moved ++ ", past " ++ Text.decimal maxZipSource
  | .position offset source bytes =>
    "position " ++ Text.decimal offset ++ " is not an instruction boundary of source "
      ++ Text.decimal source ++ " (" ++ Text.decimal bytes ++ " bytes)"
  | .stackIndex index source offset =>
    "stack index " ++ Text.decimal index.toNat ++ " of source " ++ Text.decimal source
      ++ " cannot move up by " ++ Text.decimal offset
  | .noPrograms => "multi needs at least one program"
  | .windowCount instruction count =>
    instruction.mnemonic ++ " cannot reduce " ++ Text.decimal count ++ " program(s)"
  | .discount percent => "discount " ++ Text.decimal percent.toNat ++ " exceeds 100 percent"
  | .operand error => error.message

/-- The wording of a linking error. -/
def LinkError.message : LinkError → String
  | .operand error => error.message
  | e => "cannot combine programs: " ++ e.reason

namespace Link

/-- Changes the operands of pairs in order, up to the first error. -/
def mapPairs (f : UInt8 → UInt8 → Except LinkError UInt8) :
    List (UInt8 × UInt8) → Except LinkError Source
  | [] => .ok []
  | (opcode, operand) :: rest => do
    let moved ← f opcode operand
    let code ← mapPairs f rest
    return opcode :: moved :: code

/-- Changes the operands of a source, which must consist of whole pairs. -/
def mapSource (f : UInt8 → UInt8 → Except LinkError UInt8) (index : Nat) (source : Source) :
    Except LinkError Source :=
  if isWhole source then mapPairs f (pairs source)
  else .error (.truncatedSource index source.length)

/-- Changes sources from `index` on; the change may depend on the index. -/
def mapSources (f : Nat → UInt8 → UInt8 → Except LinkError UInt8) (index : Nat) :
    List Source → Except LinkError (List Source)
  | [] => .ok []
  | source :: rest => do
    let code ← mapSource (f index) index source
    let codes ← mapSources f (index + 1) rest
    return code :: codes

/-- Turns a constant read past the pool into the flagged form. -/
def pinArgument (operand : UInt8) (pool : Nat) : Except LinkError UInt8 :=
  match Fetch.resolve operand pool with
  | .argument i => (Fetch.argument i).encode.mapError .operand
  | .constant _ => .ok operand

/-- The new operand of a pair of the base. -/
def pinPair (pool : Nat) (opcode operand : UInt8) : Except LinkError UInt8 :=
  if opcode = Instruction.constant.opcode then pinArgument operand pool else .ok operand

/-- How references of the appended program move. -/
structure Move where
  /-- The number of constants of the base. -/
  basePool : Nat
  /-- The number of constants of the appended program. -/
  pool : Nat
  spliceAt : Nat
  merged : Nat
  /-- The number of sources of the base. -/
  baseSources : Nat

/-- Where a source of the appended program goes. -/
def Move.source (move : Move) (target : Nat) : Nat :=
  if target < move.merged then target + move.spliceAt
  else target + move.baseSources - move.merged

/-- The new operand of a `CONSTANT` of the appended program. -/
def Move.constant (move : Move) (source : Nat) (operand : UInt8) : Except LinkError UInt8 :=
  match Fetch.resolve operand move.pool with
  | .argument _ => pinArgument operand move.pool
  | .constant i =>
    let moved := i.toNat + move.basePool
    if maxConstantIndex < moved then .error (.constantIndex i source moved)
    else .ok (.ofNat moved)

/-- The new operand of a `ZIPMAP` of the appended program. -/
def Move.zip (move : Move) (source : Nat) (operand : UInt8) : Except LinkError UInt8 :=
  let zip := Zip.decode operand
  let target := zip.source.toNat
  let moved := move.source target
  if maxZipSource < moved then .error (.zipSource target source moved)
  else ({ zip with source := .ofNat moved } : Zip).encode.mapError .operand

/-- The new operand of a pair of source `source` of the appended program. -/
def Move.pair (move : Move) (source : Nat) (opcode operand : UInt8) :
    Except LinkError UInt8 :=
  if opcode = Instruction.constant.opcode then move.constant source operand
  else if opcode = Instruction.zipmap.opcode then move.zip source operand
  else .ok operand

/-- Merges code into source `index`: at its end, or at a given offset, which
must lie between pairs. -/
def mergeOne (index : Nat) (target code : Source) : Option Nat → Except LinkError Source
  | none => .ok (target ++ code)
  | some offset =>
    if offset % 2 ≠ 0 ∨ target.length < offset then
      .error (.position offset index target.length)
    else .ok (target.take offset ++ code ++ target.drop offset)

/-- Merges codes into the targets from source `index` on, each at its place;
the targets beyond the last code stay. -/
def mergeAll (index : Nat) :
    List Source → List Source → List (Option Nat) → Except LinkError (List Source)
  | target :: targets, code :: codes, place :: places => do
    let source ← mergeOne index target code place
    let sources ← mergeAll (index + 1) targets codes places
    return source :: sources
  | targets, _, _ => .ok targets

end Link

/-- The places of merged sources. -/
def LinkOptions.places (options : LinkOptions) : List (Option Nat) :=
  match options.positions with
  | none => List.replicate options.merged none
  | some offsets => offsets.map some

/-- The first condition on the number of sources and positions that fails. -/
def LinkOptions.check (options : LinkOptions) (baseSources sources : Nat) :
    Except LinkError Unit :=
  if sources < options.merged then .error (.missingSources options.merged sources)
  else if baseSources < options.spliceAt + options.merged then
    .error (.spliceOutside options.spliceAt options.merged baseSources)
  else
    match options.positions with
    | some offsets =>
      if offsets.length ≠ options.merged then
        .error (.positionCount offsets.length options.merged)
      else .ok ()
    | none => .ok ()

namespace Program

/-- Links `b` onto `a`. -/
def link (a b : Program) (options : LinkOptions := {}) : Except LinkError Program := do
  options.check a.sources.length b.sources.length
  let base ← Link.mapSources (fun _ => Link.pinPair a.constants.length) 0 a.sources
  let move : Link.Move :=
    { basePool := a.constants.length, pool := b.constants.length,
      spliceAt := options.spliceAt, merged := options.merged,
      baseSources := a.sources.length }
  let moved ← Link.mapSources move.pair 0 b.sources
  let merged ← Link.mergeAll options.spliceAt (base.drop options.spliceAt)
    (moved.take options.merged) options.places
  return {
    sources := base.take options.spliceAt ++ merged ++ moved.drop options.merged
    constants := a.constants ++ b.constants
    stackLength := a.stackLength + b.stackLength
    argumentsLength := a.argumentsLength + b.argumentsLength }

/-- The new operand of a pair when `offset` values sit below a program. -/
def shiftPair (offset source : Nat) (opcode operand : UInt8) : Except LinkError UInt8 :=
  if opcode = Instruction.stack.opcode then
    if 255 < operand.toNat + offset then .error (.stackIndex operand source offset)
    else .ok (.ofNat (operand.toNat + offset))
  else .ok operand

/-- Adds `offset` to every `STACK` index, so that a program still reads its
own values once `offset` values sit below them.  The sum is exact for every
offset, also for those near `2 ^ 64`, of which 64 bits do not hold the sum. -/
def shiftStack (p : Program) (offset : Nat) : Except LinkError Program :=
  if offset = 0 then .ok p
  else do
    let sources ← Link.mapSources (shiftPair offset) 0 p.sources
    return { p with sources := sources }

/-- The program shifted by `offset`, if that is wanted. -/
def shiftIf (reassign : Bool) (p : Program) (offset : Nat) : Except LinkError Program :=
  if reassign then p.shiftStack offset else .ok p

/-- A program and another after it. -/
def linkPair (a b : Program) (reassign : Bool) : Except LinkError Program := do
  let shifted ← shiftIf reassign b 1
  a.link shifted

/-- Links programs onto `combined`, below which lie the values of `offset`
programs. -/
def linkAfter (reassign : Bool) (combined : Program) (offset : Nat) :
    List Program → Except LinkError Program
  | [] => .ok combined
  | p :: rest => do
    let shifted ← shiftIf reassign p offset
    let next ← combined.link shifted
    linkAfter reassign next (offset + 1) rest

/-- Programs that leave their values in order. -/
def linkAll (programs : List Program) (reassign : Bool) : Except LinkError Program :=
  match programs with
  | [] => .error .noPrograms
  | first :: rest => linkAfter reassign first 1 rest

end Program

end WordMachine
