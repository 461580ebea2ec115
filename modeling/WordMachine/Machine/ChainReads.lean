import WordMachine.Chain.Environment
import WordMachine.Machine.Action

/-!
# Instructions that read from outside

Each of these takes its inputs from the stack first, so a stack that is too
short is noticed before a chain that is missing.  An address is the low 160
bits of its word.

## Main definitions

* `Action.ask` — one query of the chain
* `Action.balanceOfBatch` and the others — the instructions
-/

namespace WordMachine.Action

/-- Asks the chain. -/
def ask (env : Environment) (q : Query) : Action q.Answer :=
  match env.chain with
  | none => fail (.chain .noProvider)
  | some chain => do
    emit (.asked q)
    ofExcept ((chain q).mapError .chain)

/-- Token, account: the balance. -/
def erc20BalanceOf (env : Environment) : Action Unit := do
  let (token, account) ← popPair
  let balance ← ask env (.erc20BalanceOf (.ofWord token) (.ofWord account))
  push balance

/-- Token: the supply. -/
def erc20TotalSupply (env : Environment) : Action Unit := do
  let token ← pop
  let supply ← ask env (.erc20TotalSupply (.ofWord token))
  push supply

/-- Token, account, snapshot: the balance at the snapshot. -/
def erc20SnapshotBalanceOfAt (env : Environment) : Action Unit := do
  let (token, account, snapshot) ← popTriple
  let balance ← ask env
    (.erc20SnapshotBalanceOfAt (.ofWord token) (.ofWord account) snapshot)
  push balance

/-- Token, snapshot: the supply at the snapshot. -/
def erc20SnapshotTotalSupplyAt (env : Environment) : Action Unit := do
  let (token, snapshot) ← popPair
  let supply ← ask env (.erc20SnapshotTotalSupplyAt (.ofWord token) snapshot)
  push supply

/-- Token, account: the number of ids owned. -/
def erc721BalanceOf (env : Environment) : Action Unit := do
  let (token, account) ← popPair
  let balance ← ask env (.erc721BalanceOf (.ofWord token) (.ofWord account))
  push balance

/-- Token, id: the owner. -/
def erc721OwnerOf (env : Environment) : Action Unit := do
  let (token, id) ← popPair
  let owner ← ask env (.erc721OwnerOf (.ofWord token) id)
  push owner.toWord

/-- Token, account, id: the balance. -/
def erc1155BalanceOf (env : Environment) : Action Unit := do
  let (token, account, id) ← popTriple
  let balance ← ask env (.erc1155BalanceOf (.ofWord token) (.ofWord account) id)
  push balance

/-- Token, accounts, ids: one balance for each pair.  An answer of another
length is a fault. -/
def erc1155BalanceOfBatch (env : Environment) (operand : UInt8) : Action Unit := do
  let n := operand.toNat
  let (token, rest) ← popWindow (1 + 2 * n)
  let accounts := (rest.take n).map Address.ofWord
  let ids := rest.drop n
  let balances ← ask env (.erc1155BalanceOfBatch (.ofWord token) accounts ids)
  if balances.length = n then
    pushMany balances
  else
    fail (.batchSize balances.length n)

/-- The current block number. -/
def blockNumber (env : Environment) : Action Unit := do
  let number ← ask env .blockNumber
  push number

/-- The signer's address. -/
def sender (env : Environment) : Action Unit := do
  let signer ← ofExcept (env.requireSigner.mapError .chain)
  push signer.toWord

/-- The address of the contract. -/
def thisAddress (env : Environment) : Action Unit := do
  let contract ← ofExcept (env.requireContract.mapError .chain)
  push contract.toWord

/-- The timestamp of the current block. -/
def blockTimestamp (env : Environment) : Action Unit := do
  let block ← ask env .blockNumber
  let timestamp ← ask env (.blockTimestamp block)
  push timestamp

/-- Contract, account, context words: the report. -/
def tierReport (env : Environment) (operand : UInt8) : Action Unit := do
  let (contract, account, context) ← popPairAnd operand.toNat
  let report ← ask env (.tierReport (.ofWord contract) (.ofWord account) context)
  push report

/-- The tier that a word names, if it is one of the eight. -/
def tierOf? (w : Word) : Option UInt8 :=
  w.toUInt8?.filter fun tier => 1 ≤ tier ∧ tier ≤ 8

/-- Contract, account, tier, context words: the time of the tier. -/
def tierReportTimeForTier (env : Environment) (operand : UInt8) : Action Unit := do
  let (contract, account, wanted, context) ← popTripleAnd operand.toNat
  match tierOf? wanted with
  | none =>
    fail (.invalidOperand ⟨.tierReportTimeForTier, operand, .tierOutside wanted⟩)
  | some tier =>
    let time ← ask env
      (.tierReportTimeForTier (.ofWord contract) (.ofWord account) tier context)
    push time

end WordMachine.Action
