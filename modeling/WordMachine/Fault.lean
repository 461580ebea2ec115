import WordMachine.Chain.Query
import WordMachine.Operand

/-!
# Faults

A `Fault` ends an evaluation.  It is also what the structural check of a
program reports, since that check foretells faults of an evaluation.

## Main definitions

* `Fault` — the causes
* `Fault.message` — their wording
-/

namespace WordMachine

/-- Why an evaluation ends early. -/
inductive Fault where
  /-- More values are read than the stack, pool, frame or context holds. -/
  | stackUnderflow (needed available : Nat)
  /-- The exact result of `operation` exceeds the largest word. -/
  | arithmeticOverflow (operation : String)
  /-- The exact result of `operation` is below zero. -/
  | negativeResult (operation : String)
  /-- A divisor of `operation` is zero. -/
  | divisionByZero (operation : String)
  /-- No handler is registered for the pair. -/
  | unknownOpcode (opcode operand : UInt8)
  /-- An instruction refuses its operand. -/
  | invalidOperand (error : OperandError)
  /-- There is no source with the given index. -/
  | invalidSource (index available : Nat)
  /-- A source ends in half a pair. -/
  | truncatedSource (source offset : Nat)
  /-- A read from outside the program has no answer. -/
  | chain (error : ChainError)
  /-- A batch read answered with the wrong number of balances. -/
  | batchSize (returned expected : Nat)
  /-- A host handler does not exist. -/
  | invalidName (name : String)
  deriving DecidableEq, Repr

/-- The wording of a fault. -/
def Fault.message : Fault → String
  | .stackUnderflow needed available =>
    "stack underflow: needed " ++ Text.decimal needed ++ " value(s) but only "
      ++ Text.decimal available ++ " available"
  | .arithmeticOverflow operation => operation ++ ": result exceeds 2^256-1"
  | .negativeResult operation => operation ++ ": result would be negative"
  | .divisionByZero operation => operation ++ ": division by zero"
  | .unknownOpcode opcode operand =>
    "unknown opcode " ++ Text.decimal opcode.toNat ++ " (operand "
      ++ Text.decimal operand.toNat ++ ")"
  | .invalidOperand error => error.message
  | .invalidSource index available =>
    "source index " ++ Text.decimal index ++ " out of range ("
      ++ Text.decimal available ++ " source(s))"
  | .truncatedSource source offset =>
    "source " ++ Text.decimal source ++ " ends mid-instruction at byte "
      ++ Text.decimal offset
  | .chain error => "collaborator failure: " ++ error.message
  | .batchSize returned expected =>
    "collaborator failure: erc1155_balance_of_batch returned " ++ Text.decimal returned
      ++ " balance(s) for " ++ Text.decimal expected ++ " pair(s)"
  | .invalidName name => "invalid instruction name: " ++ name

end WordMachine
