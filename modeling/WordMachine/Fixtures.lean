import WordMachine.Machine.Table

/-!
# Fixtures

Handlers that a host might register, and chains that misbehave on purpose.  No part of the machine
uses them: a program that drives the machine registers them, and examples of runs do.

## Main definitions

* `Handler.double` and the handlers after it — handlers that look at a machine or change its stack
* `Chain.failing`, `Chain.resizing` — chains with queries that fail or answer with another length
-/

namespace WordMachine

namespace Handler

open WordMachine.Action

/-- Replaces the top value by twice its value. -/
def double : Handler := fun _ _ => do
  let value ← pop
  match value.add? value with
  | some twice => push twice
  | none => fail (.arithmeticOverflow "DOUBLE")

/-- Pushes the operand. -/
def pushOperand : Handler := fun operand _ => push (Word.ofSmall operand.toNat)

/-- Pushes the height of the stack. -/
def pushHeight : Handler := fun _ _ => do
  let height ← look Machine.height
  push (Word.ofSmall height)

/-- Pushes the number of open frames. -/
def pushDepth : Handler := fun _ _ => do
  let depth ← look Machine.depth
  push (Word.ofSmall depth)

/-- Pushes the length of the innermost frame. -/
def pushFrameLength : Handler := fun _ _ => do
  let frame ← look Machine.currentFrame
  push (Word.ofSmall frame.length)

/-- Pushes the value of the innermost frame under the operand. -/
def pushArgument : Handler := fun operand _ => do
  let value ← look fun m => m.argument operand.toUInt64
  let value ← ofExcept value
  push value

/-- Pushes the constant under the operand. -/
def pushConstant : Handler := fun operand _ => do
  let value ← look fun m => m.constant operand.toUInt64
  let value ← ofExcept value
  push value

/-- Takes the top value away. -/
def dropOne : Handler := fun _ _ => do
  let _ ← pop
  return ()

/-- Takes as many values away as the operand says. -/
def dropMany : Handler := fun operand _ => do
  let _ ← popMany operand.toNat
  return ()

/-- Does nothing. -/
def idle : Handler := fun _ _ => return ()

/-- Pushes the signer's address. -/
def pushSigner : Handler := fun _ env => do
  let signer ← ofExcept (env.requireSigner.mapError .chain)
  push signer.toWord

/-- Stands for a handler that does not exist. -/
def missing (name : String) : Handler := fun _ _ => fail (.invalidName name)

end Handler

namespace Chain

/-- A chain on which the queries with the given names fail. -/
def failing (names : List String) (chain : Chain) : Chain := fun q =>
  if names.contains q.name then .error (.queryFailed q.name "injected") else chain q

/-- A chain whose batches of balances are cut or filled with zeros to `size`
values. -/
def resizing (size : Nat) (chain : Chain) : Chain
  | .erc1155BalanceOfBatch token accounts ids =>
    (chain (.erc1155BalanceOfBatch token accounts ids)).map fun balances =>
      (balances ++ List.replicate (size - balances.length) Word.zero).take size
  | .blockNumber => chain .blockNumber
  | .blockTimestamp b => chain (.blockTimestamp b)
  | .erc20BalanceOf t a => chain (.erc20BalanceOf t a)
  | .erc20TotalSupply t => chain (.erc20TotalSupply t)
  | .erc20SnapshotBalanceOfAt t a s => chain (.erc20SnapshotBalanceOfAt t a s)
  | .erc20SnapshotTotalSupplyAt t s => chain (.erc20SnapshotTotalSupplyAt t s)
  | .erc721BalanceOf t a => chain (.erc721BalanceOf t a)
  | .erc721OwnerOf t i => chain (.erc721OwnerOf t i)
  | .erc1155BalanceOf t a i => chain (.erc1155BalanceOf t a i)
  | .tierReport c a x => chain (.tierReport c a x)
  | .tierReportTimeForTier c a t x => chain (.tierReportTimeForTier c a t x)

end Chain

end WordMachine
