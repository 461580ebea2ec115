import WordMachine.Machine.Arithmetic
import WordMachine.Machine.ChainReads
import WordMachine.Machine.Table
import WordMachine.Report

/-!
# Standard instructions

This module says what each standard instruction does.  `ZIPMAP` evaluates a
source of the same program, so it is given the evaluation of sources one level
further down, which is missing once the nesting is used up.

## Main definitions

* `Action.fetchConstant`, `Action.copyStack`, `Action.inspect` — the core
* `Action.zipmap` — evaluation of a source for each lane
* `Action.execute` — what each standard instruction does
-/

namespace WordMachine

/-- Lane `lane` of a value that is cut into `lanes` lanes of `bits` bits; lane
0 is the most significant. -/
def laneSlice (value : Word) (lane lanes bits : Nat) : Word :=
  (value.shiftRight (bits * (lanes - 1 - lane))).and (Word.lowMask bits)

/-- Words in brackets, in decimal. -/
def renderWords (values : List Word) : String :=
  "[" ++ String.intercalate ", " (values.map Word.decimal) ++ "]"

namespace Action

/-! ## Core instructions -/

/-- Pushes a constant or an argument. -/
def fetchConstant (operand : UInt8) : Action Unit := do
  let value ← look fun m =>
    match Fetch.resolve operand m.constants.length with
    | .constant i => m.constant i.toUInt64
    | .argument i => m.argument i.toUInt64
  let value ← ofExcept value
  push value

/-- Pushes a copy of a stack value. -/
def copyStack (operand : UInt8) : Action Unit := do
  let value ← look fun m => m.stackAt operand.toUInt64
  let value ← ofExcept value
  push value

/-- What `DEBUG` logs of a machine. -/
def describe (m : Machine) : Inspection → String
  | .state =>
    "stack=" ++ renderWords m.stack ++ " arguments=" ++ renderWords m.arguments
      ++ " constants=" ++ renderWords m.constants
      ++ " sources=" ++ Text.decimal m.sources.length
      ++ " zipmap_depth=" ++ Text.decimal m.depth
  | .stack => "stack=" ++ renderWords m.stack
  | .constants => "constants=" ++ renderWords m.constants
  | .arguments => "arguments=" ++ renderWords m.currentFrame

/-- Logs a part of the machine. -/
def inspect (operand : UInt8) : Action Unit := do
  let part ← ofOperand (Inspection.decode operand)
  let text ← look fun m => describe m part
  log .info (Instruction.debug.mnemonic ++ ": " ++ text)

/-! ## Tier reports -/

/-- Replaces two reports by their lane-wise difference. -/
def saturatingDiff : Action Unit := do
  let (a, b) ← popPair
  push (Report.difference a b)

/-- Takes a threshold and then reports, and pushes their selection. -/
def selectLte (operand : UInt8) : Action Unit := do
  let selection ← ofOperand (Selection.decode operand)
  let threshold ← pop
  let reports ← popMany selection.count.toNat
  push (Report.select reports threshold selection.logic selection.mode)

/-- Lowers a range of lanes of a report. -/
def updateTimesForTierRange (operand : UInt8) : Action Unit := do
  let range ← ofOperand (TierRange.decode operand)
  let (report, value) ← popPair
  push (Report.lower report range value)

/-! ## `ZIPMAP` -/

/-- An action within a frame of its own, which is closed also after a fault. -/
def inFrame (values : List Word) (body : Action Unit) : Action Unit := fun m =>
  let ⟨result, m', events⟩ := body (m.openFrame values)
  ⟨result, m'.closeFrame, events⟩

/-- The evaluation for one lane.  An iteration should leave one value more; a
warning says when it does not. -/
def zipLane (evaluate : Nat → Action Unit) (zip : Zip) (values : List Word) (lane : Nat) :
    Action Unit := do
  let source := zip.source.toNat
  let before ← look Machine.height
  inFrame (values.map fun v => laneSlice v lane zip.lanes zip.laneBits) (evaluate source)
  let after ← look Machine.height
  if after ≠ before + 1 then
    log .warn (Instruction.zipmap.mnemonic ++ ": iteration " ++ Text.decimal lane
      ++ " of source " ++ Text.decimal source ++ " left " ++ Text.decimal after
      ++ " value(s) on a stack of " ++ Text.decimal before ++ ", expected one result")

/-- The evaluations for lanes in order, up to the first fault. -/
def zipLanes (evaluate : Nat → Action Unit) (zip : Zip) (values : List Word) :
    List Nat → Action Unit
  | [] => return ()
  | lane :: rest => do
    zipLane evaluate zip values lane
    zipLanes evaluate zip values rest

/-- Takes values and evaluates a source once for each of their lanes, most
significant first. -/
def zipmap (nested : Option (Nat → Action Unit)) (operand : UInt8) : Action Unit := do
  let zip := Zip.decode operand
  let depth ← look Machine.depth
  match nested with
  | none => fail (.invalidOperand ⟨.zipmap, operand, .nesting⟩)
  | some evaluate =>
    if maxDepth ≤ depth then
      fail (.invalidOperand ⟨.zipmap, operand, .nesting⟩)
    else
      let available ← look fun m => m.sources.length
      if available ≤ zip.source.toNat then
        fail (.invalidSource zip.source.toNat available)
      else
        let values ← popMany zip.valueCount
        zipLanes evaluate zip values (List.range zip.lanes)

/-! ## All standard instructions -/

/-- What a standard instruction does.  `CONTEXT` and `STORAGE` belong to the
host, so here they are unknown. -/
def execute (env : Environment) (nested : Option (Nat → Action Unit))
    (instruction : Instruction) (operand : UInt8) : Action Unit :=
  match instruction with
  | .constant => fetchConstant operand
  | .stack => copyStack operand
  | .context | .storage => fail (.unknownOpcode instruction.opcode operand)
  | .zipmap => zipmap nested operand
  | .debug => inspect operand
  | .erc20BalanceOf => erc20BalanceOf env
  | .erc20TotalSupply => erc20TotalSupply env
  | .erc20SnapshotBalanceOfAt => erc20SnapshotBalanceOfAt env
  | .erc20SnapshotTotalSupplyAt => erc20SnapshotTotalSupplyAt env
  | .erc721BalanceOf => erc721BalanceOf env
  | .erc721OwnerOf => erc721OwnerOf env
  | .erc1155BalanceOf => erc1155BalanceOf env
  | .erc1155BalanceOfBatch => erc1155BalanceOfBatch env operand
  | .blockNumber => blockNumber env
  | .sender => sender env
  | .thisAddress => thisAddress env
  | .blockTimestamp => blockTimestamp env
  | .scale18 => scale .to18 operand
  | .scale18Div => scaleBinary Scale.divide operand
  | .scale18Mul => scaleBinary Scale.multiply operand
  | .scaleBy => scale .byPower operand
  | .scaleN => scale .from18 operand
  | .any => anyOf operand
  | .eagerIf => choose
  | .equalTo => compare .equal
  | .every => everyOf operand
  | .greaterThan => compare .greater
  | .isZero => testZero
  | .lessThan => compare .less
  | .saturatingAdd => foldWindow .saturatingAdd operand
  | .saturatingMul => foldWindow .saturatingMul operand
  | .saturatingSub => foldWindow .saturatingSub operand
  | .add => foldWindow .add operand
  | .div => foldWindow .div operand
  | .exp => foldWindow .exp operand
  | .max => foldWindow .max operand
  | .min => foldWindow .min operand
  | .mod => foldWindow .mod operand
  | .mul => foldWindow .mul operand
  | .sub => foldWindow .sub operand
  | .tierReport => tierReport env operand
  | .tierReportTimeForTier => tierReportTimeForTier env operand
  | .saturatingDiff => saturatingDiff
  | .selectLte => selectLte operand
  | .updateTimesForTierRange => updateTimesForTierRange operand

end Action

end WordMachine
