import WordMachine.Chain.Query
import WordMachine.Report

/-!
# A chain in memory

A `Ledger` lists what is known of a chain.  Registering a fact replaces an
earlier fact about the same thing.  Unknown balances and supplies are zero and
unknown reports those of an account without tiers; unknown owners and
timestamps are errors.

## Main definitions

* `Register` — an association list in which a later entry replaces an earlier
  one
* `Ledger`, `Ledger.record` — what is known, and how a fact is added
* `Ledger.chain` — the chain that answers from a ledger
-/

namespace WordMachine

/-- An association list with at most one entry for each key. -/
abbrev Register (κ ν : Type) := List (κ × ν)

namespace Register

variable {κ ν : Type} [DecidableEq κ]

/-- Sets the value of a key, replacing an earlier one in its place. -/
def insert (r : Register κ ν) (key : κ) (value : ν) : Register κ ν :=
  match r with
  | [] => [(key, value)]
  | (k, v) :: rest =>
    if k = key then (key, value) :: rest else (k, v) :: Register.insert rest key value

/-- The value of a key, if it has one. -/
def find? (r : Register κ ν) (key : κ) : Option ν :=
  match r with
  | [] => none
  | (k, v) :: rest => if k = key then some v else Register.find? rest key

end Register

/-- A fact about a chain. -/
inductive Fact where
  /-- The current block and its timestamp. -/
  | block (number timestamp : Word)
  | erc20Balance (token account : Address) (balance : Word)
  | erc20Supply (token : Address) (supply : Word)
  | erc20SnapshotBalance (token account : Address) (snapshot balance : Word)
  | erc20SnapshotSupply (token : Address) (snapshot supply : Word)
  | erc721Owner (token : Address) (id : Word) (owner : Address)
  | erc1155Balance (token account : Address) (id balance : Word)
  | tierReport (contract account : Address) (report : Word)
  deriving DecidableEq

/-- What is known of a chain. -/
structure Ledger where
  blockNumber : Word := Word.zero
  timestamps : Register Word Word := []
  erc20Balances : Register (Address × Address) Word := []
  erc20Supplies : Register Address Word := []
  erc20SnapshotBalances : Register (Address × Address × Word) Word := []
  erc20SnapshotSupplies : Register (Address × Word) Word := []
  erc721Owners : Register (Address × Word) Address := []
  erc1155Balances : Register (Address × Address × Word) Word := []
  tierReports : Register (Address × Address) Word := []

namespace Ledger

/-- Adds a fact. -/
def record (l : Ledger) : Fact → Ledger
  | .block number timestamp =>
    { l with blockNumber := number, timestamps := l.timestamps.insert number timestamp }
  | .erc20Balance token account balance =>
    { l with erc20Balances := l.erc20Balances.insert (token, account) balance }
  | .erc20Supply token supply =>
    { l with erc20Supplies := l.erc20Supplies.insert token supply }
  | .erc20SnapshotBalance token account snapshot balance =>
    { l with erc20SnapshotBalances :=
        l.erc20SnapshotBalances.insert (token, account, snapshot) balance }
  | .erc20SnapshotSupply token snapshot supply =>
    { l with erc20SnapshotSupplies := l.erc20SnapshotSupplies.insert (token, snapshot) supply }
  | .erc721Owner token id owner =>
    { l with erc721Owners := l.erc721Owners.insert (token, id) owner }
  | .erc1155Balance token account id balance =>
    { l with erc1155Balances := l.erc1155Balances.insert (token, account, id) balance }
  | .tierReport contract account report =>
    { l with tierReports := l.tierReports.insert (contract, account) report }

/-- The ledger of facts in the order in which they became known. -/
def ofFacts (facts : List Fact) : Ledger := facts.foldl record {}

/-- The balance of an id, zero if it is unknown. -/
def erc1155Balance (l : Ledger) (token account : Address) (id : Word) : Word :=
  (l.erc1155Balances.find? (token, account, id)).getD Word.zero

/-- The report of an account, without tiers if it is unknown. -/
def report (l : Ledger) (contract account : Address) : Word :=
  (l.tierReports.find? (contract, account)).getD Report.neverHeld

/-- The number of ids of a token that an account owns. -/
def ownedCount (l : Ledger) (token account : Address) : Nat :=
  l.erc721Owners.countP fun ((t, _), owner) => t == token && owner == account

/-- The chain that answers from a ledger. -/
def chain (l : Ledger) : Chain
  | .blockNumber => .ok l.blockNumber
  | .blockTimestamp block =>
    match l.timestamps.find? block with
    | some timestamp => .ok timestamp
    | none => .error (.queryFailed "block_timestamp"
        ("no timestamp recorded for block " ++ block.decimal))
  | .erc20BalanceOf token account =>
    .ok ((l.erc20Balances.find? (token, account)).getD Word.zero)
  | .erc20TotalSupply token => .ok ((l.erc20Supplies.find? token).getD Word.zero)
  | .erc20SnapshotBalanceOfAt token account snapshot =>
    .ok ((l.erc20SnapshotBalances.find? (token, account, snapshot)).getD Word.zero)
  | .erc20SnapshotTotalSupplyAt token snapshot =>
    .ok ((l.erc20SnapshotSupplies.find? (token, snapshot)).getD Word.zero)
  | .erc721BalanceOf token account => .ok (Word.ofSmall (l.ownedCount token account))
  | .erc721OwnerOf token id =>
    match l.erc721Owners.find? (token, id) with
    | some owner => .ok owner
    | none => .error (.queryFailed "erc721_owner_of"
        ("token " ++ id.decimal ++ " of " ++ token.text ++ " does not exist"))
  | .erc1155BalanceOf token account id => .ok (l.erc1155Balance token account id)
  | .erc1155BalanceOfBatch token accounts ids =>
    if accounts.length = ids.length then
      .ok (List.zipWith (l.erc1155Balance token) accounts ids)
    else
      .error (.queryFailed "erc1155_balance_of_batch"
        (Text.decimal accounts.length ++ " accounts but " ++ Text.decimal ids.length ++ " ids"))
  | .tierReport contract account _ => .ok (l.report contract account)
  | .tierReportTimeForTier contract account tier _ =>
    .ok (Report.timeForTier (l.report contract account) tier)

end Ledger

end WordMachine
