/-!
# Standard instructions

A source is a sequence of pairs of an opcode byte and an operand byte.  The
opcodes below 46 are the standard instructions of this module; those above are
free for the host.

## Main definitions

* `Instruction` — the standard instructions
* `Instruction.opcode`, `Instruction.ofOpcode?` — their numbering
* `Instruction.mnemonic`, `Instruction.ofMnemonic?` — their names
* `Instruction.form` — how each reads its operand byte
-/

namespace WordMachine

/-- The standard instructions, in the order of their opcodes. -/
inductive Instruction where
  /-- Push a constant, or an argument of the current frame. -/
  | constant
  /-- Push a copy of a stack value, counted from the bottom. -/
  | stack
  /-- Run the host's context handler registered under the operand. -/
  | context
  /-- Run the host's storage handler registered under the operand. -/
  | storage
  /-- Evaluate a source once per lane of the popped values. -/
  | zipmap
  /-- Log a part of the machine. -/
  | debug
  /-- Token, account: the account's balance. -/
  | erc20BalanceOf
  /-- Token: its supply. -/
  | erc20TotalSupply
  /-- Token, account, snapshot: the balance at the snapshot. -/
  | erc20SnapshotBalanceOfAt
  /-- Token, snapshot: the supply at the snapshot. -/
  | erc20SnapshotTotalSupplyAt
  /-- Token, account: the number of ids owned. -/
  | erc721BalanceOf
  /-- Token, id: the owner. -/
  | erc721OwnerOf
  /-- Token, account, id: the balance. -/
  | erc1155BalanceOf
  /-- Token, accounts, ids: one balance for each pair. -/
  | erc1155BalanceOfBatch
  /-- Push the current block number. -/
  | blockNumber
  /-- Push the signer's address. -/
  | sender
  /-- Push the address of the evaluating contract. -/
  | thisAddress
  /-- Push the timestamp of the current block. -/
  | blockTimestamp
  /-- Rescale a value to 18 decimals. -/
  | scale18
  /-- Rescale the deeper value to 18 decimals and divide it by the other. -/
  | scale18Div
  /-- Rescale the deeper value to 18 decimals and multiply it by the other. -/
  | scale18Mul
  /-- Multiply by a signed power of ten. -/
  | scaleBy
  /-- Rescale a value from 18 decimals. -/
  | scaleN
  /-- The first non-zero value of the window, else zero. -/
  | any
  /-- Condition, value, value: the first value for a non-zero condition. -/
  | eagerIf
  /-- Whether two values are equal. -/
  | equalTo
  /-- Zero if the window holds a zero, else its last value. -/
  | every
  /-- Whether the deeper value is the larger. -/
  | greaterThan
  /-- Whether a value is zero. -/
  | isZero
  /-- Whether the deeper value is the smaller. -/
  | lessThan
  /-- The sum of the window, at most the largest word. -/
  | saturatingAdd
  /-- The product of the window, at most the largest word. -/
  | saturatingMul
  /-- The difference of the window, at least zero. -/
  | saturatingSub
  /-- The sum of the window. -/
  | add
  /-- The quotient of the window. -/
  | div
  /-- The iterated power of the window. -/
  | exp
  /-- The largest value of the window. -/
  | max
  /-- The smallest value of the window. -/
  | min
  /-- The iterated remainder of the window. -/
  | mod
  /-- The product of the window. -/
  | mul
  /-- The difference of the window. -/
  | sub
  /-- Contract, account, context words: the account's report. -/
  | tierReport
  /-- Contract, account, tier, context words: the time of the tier. -/
  | tierReportTimeForTier
  /-- Two reports: their lane-wise difference, at least zero. -/
  | saturatingDiff
  /-- Reports, threshold: the lane-wise selection. -/
  | selectLte
  /-- Report, time: the report with a range of lanes lowered. -/
  | updateTimesForTierRange
  deriving DecidableEq, Repr, Inhabited

/-- How an instruction reads its operand byte. -/
inductive OperandForm where
  /-- Ignored, and written as zero. -/
  | none
  /-- An index into the constant pool or the argument frame. -/
  | constant
  /-- A position in the stack, counted from the bottom. -/
  | stackIndex
  /-- A key of a host handler. -/
  | extension
  /-- A source, a lane width and a number of values. -/
  | zipmap
  /-- A part of the machine. -/
  | debug
  /-- A number of values, not zero. -/
  | window
  /-- A number of values read beside the fixed ones. -/
  | length
  /-- A number of decimals. -/
  | decimals
  /-- A power of ten in two's complement. -/
  | signedExponent
  /-- A logic, a mode and a number of reports. -/
  | selectLte
  /-- A first and a last tier. -/
  | tierRange
  deriving DecidableEq, Repr

namespace Instruction

/-- Every standard instruction, in the order of the opcodes. -/
def all : List Instruction :=
  [ .constant, .stack, .context, .storage, .zipmap, .debug, .erc20BalanceOf,
    .erc20TotalSupply, .erc20SnapshotBalanceOfAt,
    .erc20SnapshotTotalSupplyAt, .erc721BalanceOf, .erc721OwnerOf,
    .erc1155BalanceOf, .erc1155BalanceOfBatch, .blockNumber, .sender,
    .thisAddress, .blockTimestamp, .scale18, .scale18Div, .scale18Mul,
    .scaleBy, .scaleN, .any, .eagerIf, .equalTo, .every, .greaterThan,
    .isZero, .lessThan, .saturatingAdd, .saturatingMul, .saturatingSub, .add,
    .div, .exp, .max, .min, .mod, .mul, .sub, .tierReport,
    .tierReportTimeForTier, .saturatingDiff, .selectLte,
    .updateTimesForTierRange ]

/-- The opcode byte. -/
def opcode : Instruction → UInt8
  | .constant => 0
  | .stack => 1
  | .context => 2
  | .storage => 3
  | .zipmap => 4
  | .debug => 5
  | .erc20BalanceOf => 6
  | .erc20TotalSupply => 7
  | .erc20SnapshotBalanceOfAt => 8
  | .erc20SnapshotTotalSupplyAt => 9
  | .erc721BalanceOf => 10
  | .erc721OwnerOf => 11
  | .erc1155BalanceOf => 12
  | .erc1155BalanceOfBatch => 13
  | .blockNumber => 14
  | .sender => 15
  | .thisAddress => 16
  | .blockTimestamp => 17
  | .scale18 => 18
  | .scale18Div => 19
  | .scale18Mul => 20
  | .scaleBy => 21
  | .scaleN => 22
  | .any => 23
  | .eagerIf => 24
  | .equalTo => 25
  | .every => 26
  | .greaterThan => 27
  | .isZero => 28
  | .lessThan => 29
  | .saturatingAdd => 30
  | .saturatingMul => 31
  | .saturatingSub => 32
  | .add => 33
  | .div => 34
  | .exp => 35
  | .max => 36
  | .min => 37
  | .mod => 38
  | .mul => 39
  | .sub => 40
  | .tierReport => 41
  | .tierReportTimeForTier => 42
  | .saturatingDiff => 43
  | .selectLte => 44
  | .updateTimesForTierRange => 45

/-- The instruction with the given opcode byte, if it is a standard one. -/
def ofOpcode? (opcode : UInt8) : Option Instruction := all[opcode.toNat]?

/-- Every instruction is found under its own opcode. -/
@[simp]
theorem ofOpcode?_opcode (i : Instruction) : ofOpcode? i.opcode = some i := by
  cases i <;> rfl

/-- Different instructions have different opcodes. -/
theorem opcode_inj {i j : Instruction} : i.opcode = j.opcode ↔ i = j := by
  constructor
  · intro h
    have hsome := congrArg ofOpcode? h
    rw [ofOpcode?_opcode, ofOpcode?_opcode] at hsome
    exact Option.some.inj hsome
  · intro h
    rw [h]

/-- The name in assembler text and in messages. -/
def mnemonic : Instruction → String
  | .constant => "CONSTANT"
  | .stack => "STACK"
  | .context => "CONTEXT"
  | .storage => "STORAGE"
  | .zipmap => "ZIPMAP"
  | .debug => "DEBUG"
  | .erc20BalanceOf => "IERC20_BALANCE_OF"
  | .erc20TotalSupply => "IERC20_TOTAL_SUPPLY"
  | .erc20SnapshotBalanceOfAt => "IERC20_SNAPSHOT_BALANCE_OF_AT"
  | .erc20SnapshotTotalSupplyAt => "IERC20_SNAPSHOT_TOTAL_SUPPLY_AT"
  | .erc721BalanceOf => "IERC721_BALANCE_OF"
  | .erc721OwnerOf => "IERC721_OWNER_OF"
  | .erc1155BalanceOf => "IERC1155_BALANCE_OF"
  | .erc1155BalanceOfBatch => "IERC1155_BALANCE_OF_BATCH"
  | .blockNumber => "BLOCK_NUMBER"
  | .sender => "SENDER"
  | .thisAddress => "THIS_ADDRESS"
  | .blockTimestamp => "BLOCK_TIMESTAMP"
  | .scale18 => "SCALE18"
  | .scale18Div => "SCALE18_DIV"
  | .scale18Mul => "SCALE18_MUL"
  | .scaleBy => "SCALE_BY"
  | .scaleN => "SCALEN"
  | .any => "ANY"
  | .eagerIf => "EAGER_IF"
  | .equalTo => "EQUAL_TO"
  | .every => "EVERY"
  | .greaterThan => "GREATER_THAN"
  | .isZero => "ISZERO"
  | .lessThan => "LESS_THAN"
  | .saturatingAdd => "SATURATING_ADD"
  | .saturatingMul => "SATURATING_MUL"
  | .saturatingSub => "SATURATING_SUB"
  | .add => "ADD"
  | .div => "DIV"
  | .exp => "EXP"
  | .max => "MAX"
  | .min => "MIN"
  | .mod => "MOD"
  | .mul => "MUL"
  | .sub => "SUB"
  | .tierReport => "ITIERV2_REPORT"
  | .tierReportTimeForTier => "ITIERV2_REPORT_TIME_FOR_TIER"
  | .saturatingDiff => "SATURATING_DIFF"
  | .selectLte => "SELECT_LTE"
  | .updateTimesForTierRange => "UPDATE_TIMES_FOR_TIER_RANGE"

/-- How the operand byte is read. -/
def form : Instruction → OperandForm
  | .constant => .constant
  | .stack => .stackIndex
  | .context | .storage => .extension
  | .zipmap => .zipmap
  | .debug => .debug
  | .erc1155BalanceOfBatch | .tierReport | .tierReportTimeForTier => .length
  | .scale18 | .scale18Div | .scale18Mul | .scaleN => .decimals
  | .scaleBy => .signedExponent
  | .any | .every | .saturatingAdd | .saturatingMul | .saturatingSub
  | .add | .div | .exp | .max | .min | .mod | .mul | .sub => .window
  | .selectLte => .selectLte
  | .updateTimesForTierRange => .tierRange
  | _ => .none

/-- The instruction with the given name; `DUP` is a second name of
`STACK`. -/
def ofMnemonic? (name : String) : Option Instruction :=
  if name = "DUP" then some .stack
  else all.find? fun i => i.mnemonic = name

end Instruction

/-- The name of any opcode; the host's opcodes share one. -/
def opcodeName (opcode : UInt8) : String :=
  match Instruction.ofOpcode? opcode with
  | some instruction => instruction.mnemonic
  | none => "OP"

end WordMachine
