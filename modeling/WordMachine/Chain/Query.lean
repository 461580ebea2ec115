import WordMachine.Address
import WordMachine.Word.Text

/-!
# Chain queries

Programs read token balances, tier reports and block data from a chain.  A
`Query` is one such read, and a `Chain` is anything that answers queries; the
type of an answer depends on the query.

## Main definitions

* `Query`, `Query.Answer` — reads and the types of their answers
* `Chain` — a function from queries to answers
* `ChainError` — why there is no answer
-/

namespace WordMachine

/-- One read of chain data. -/
inductive Query where
  | blockNumber
  | blockTimestamp (block : Word)
  | erc20BalanceOf (token account : Address)
  | erc20TotalSupply (token : Address)
  | erc20SnapshotBalanceOfAt (token account : Address) (snapshot : Word)
  | erc20SnapshotTotalSupplyAt (token : Address) (snapshot : Word)
  | erc721BalanceOf (token account : Address)
  | erc721OwnerOf (token : Address) (id : Word)
  | erc1155BalanceOf (token account : Address) (id : Word)
  | erc1155BalanceOfBatch (token : Address) (accounts : List Address) (ids : List Word)
  | tierReport (contract account : Address) (context : List Word)
  | tierReportTimeForTier (contract account : Address) (tier : UInt8) (context : List Word)
  deriving DecidableEq

namespace Query

/-- The type of the answers to a query: an owner is an address, a batch of
balances a list of words, and everything else a word. -/
abbrev Answer : Query → Type
  | .erc721OwnerOf .. => Address
  | .erc1155BalanceOfBatch .. => List Word
  | _ => Word

/-- The name of a query in messages and records. -/
def name : Query → String
  | .blockNumber => "block_number"
  | .blockTimestamp .. => "block_timestamp"
  | .erc20BalanceOf .. => "erc20_balance_of"
  | .erc20TotalSupply .. => "erc20_total_supply"
  | .erc20SnapshotBalanceOfAt .. => "erc20_snapshot_balance_of_at"
  | .erc20SnapshotTotalSupplyAt .. => "erc20_snapshot_total_supply_at"
  | .erc721BalanceOf .. => "erc721_balance_of"
  | .erc721OwnerOf .. => "erc721_owner_of"
  | .erc1155BalanceOf .. => "erc1155_balance_of"
  | .erc1155BalanceOfBatch .. => "erc1155_balance_of_batch"
  | .tierReport .. => "tier_report"
  | .tierReportTimeForTier .. => "tier_report_time_for_tier"

/-- A list of texts in brackets, with commas between them. -/
def bracketed (items : List String) : String :=
  "[" ++ String.intercalate "," items ++ "]"

/-- The arguments of a query as texts: addresses in hexadecimal, numbers in
decimal, lists in brackets. -/
def arguments : Query → List String
  | .blockNumber => []
  | .blockTimestamp block => [block.decimal]
  | .erc20BalanceOf token account => [token.text, account.text]
  | .erc20TotalSupply token => [token.text]
  | .erc20SnapshotBalanceOfAt token account snapshot =>
    [token.text, account.text, snapshot.decimal]
  | .erc20SnapshotTotalSupplyAt token snapshot => [token.text, snapshot.decimal]
  | .erc721BalanceOf token account => [token.text, account.text]
  | .erc721OwnerOf token id => [token.text, id.decimal]
  | .erc1155BalanceOf token account id => [token.text, account.text, id.decimal]
  | .erc1155BalanceOfBatch token accounts ids =>
    [token.text, bracketed (accounts.map Address.text), bracketed (ids.map Word.decimal)]
  | .tierReport contract account context =>
    [contract.text, account.text, bracketed (context.map Word.decimal)]
  | .tierReportTimeForTier contract account tier context =>
    [contract.text, account.text, Text.decimal tier.toNat,
      bracketed (context.map Word.decimal)]

/-- One line for a query: its name and its arguments. -/
def record (q : Query) : String := String.intercalate " " (q.name :: q.arguments)

end Query

/-- Why a read from outside the program has no answer. -/
inductive ChainError where
  | noProvider
  | noSigner
  | noContract
  | queryFailed (query reason : String)
  deriving DecidableEq, Repr

/-- The wording of a chain error. -/
def ChainError.message : ChainError → String
  | .noProvider => "no provider configured"
  | .noSigner => "no signer configured"
  | .noContract => "no contract address configured for THIS_ADDRESS"
  | .queryFailed query reason => query ++ " failed: " ++ reason

/-- Anything that answers queries. -/
abbrev Chain := (q : Query) → Except ChainError q.Answer

end WordMachine
