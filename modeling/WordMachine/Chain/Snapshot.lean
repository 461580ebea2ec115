import WordMachine.Chain.Environment
import WordMachine.Json.Reader

/-!
# Chain snapshots

A snapshot describes a chain and a caller in JSON.  Every field may be
missing; the entries of its lists are complete records.

## Main definitions

* `TokenBalance`, `TokenSupply`, `NftOwner`, `MultiTokenBalance`, `ReportEntry` — the entries of
  its lists
* `Snapshot`, `Snapshot.facts` — the fields of a snapshot, and what its lists say of the chain
* `Snapshot.ofJson` — reading one
* `Snapshot.environment` — the environment it describes
-/

namespace WordMachine

/-- A balance of a token. -/
structure TokenBalance where
  token : Address
  account : Address
  balance : Word

/-- The supply of a token. -/
structure TokenSupply where
  token : Address
  supply : Word

/-- The owner of an id of a token. -/
structure NftOwner where
  token : Address
  id : Word
  owner : Address

/-- A balance of an id of a token. -/
structure MultiTokenBalance where
  token : Address
  account : Address
  id : Word
  balance : Word

/-- The report of an account at a tier contract. -/
structure ReportEntry where
  contract : Address
  account : Address
  report : Word

/-- A description of a chain and a caller. -/
structure Snapshot where
  blockNumber : Word := Word.zero
  blockTimestamp : Word := Word.zero
  sender : Option Address := none
  thisAddress : Option Address := none
  context : List Word := []
  erc20Balances : List TokenBalance := []
  erc20Supplies : List TokenSupply := []
  erc721Owners : List NftOwner := []
  erc1155Balances : List MultiTokenBalance := []
  tierReports : List ReportEntry := []

namespace Snapshot

/-- What the lists say of the chain, in the order in which it takes effect. -/
def facts (s : Snapshot) : List Fact :=
  s.erc20Balances.map (fun b => .erc20Balance b.token b.account b.balance)
    ++ s.erc20Supplies.map (fun b => .erc20Supply b.token b.supply)
    ++ s.erc721Owners.map (fun o => .erc721Owner o.token o.id o.owner)
    ++ s.erc1155Balances.map (fun b => .erc1155Balance b.token b.account b.id b.balance)
    ++ s.tierReports.map (fun r => .tierReport r.contract r.account r.report)

/-- The environment that a snapshot describes. -/
def environment (s : Snapshot) : Environment where
  context := s.context
  chain := some (Ledger.ofFacts (.block s.blockNumber s.blockTimestamp :: s.facts)).chain
  signer := s.sender.map .ok
  contract := s.thisAddress

/-! ## Entries -/

/-- The fields of an entry that were read so far.  Each kind of entry uses
some of them. -/
structure EntryDraft where
  token : Option Address := none
  account : Option Address := none
  owner : Option Address := none
  id : Option Word := none
  amount : Option Word := none

/-- The field of a token or contract. -/
def tokenField (key : String) : Json.Field EntryDraft :=
  .of key EntryDraft.token (fun d v => { d with token := some v }) Json.address

/-- The field of an account. -/
def accountField : Json.Field EntryDraft :=
  .of "account" EntryDraft.account (fun d v => { d with account := some v }) Json.address

/-- The field of an owner. -/
def ownerField : Json.Field EntryDraft :=
  .of "owner" EntryDraft.owner (fun d v => { d with owner := some v }) Json.address

/-- The field of an id. -/
def idField : Json.Field EntryDraft :=
  .of "id" EntryDraft.id (fun d v => { d with id := some v }) Json.word

/-- The field of a balance, supply or report. -/
def amountField (key : String) : Json.Field EntryDraft :=
  .of key EntryDraft.amount (fun d v => { d with amount := some v }) Json.word

/-- An ERC-20 balance. -/
def erc20Balance : Json.Reader TokenBalance :=
  Json.record [tokenField "token", accountField, amountField "balance"] {} fun d =>
    return ⟨← d.token, ← d.account, ← d.amount⟩

/-- An ERC-20 supply. -/
def erc20Supply : Json.Reader TokenSupply :=
  Json.record [tokenField "token", amountField "supply"] {} fun d =>
    return ⟨← d.token, ← d.amount⟩

/-- An ERC-721 owner. -/
def erc721Owner : Json.Reader NftOwner :=
  Json.record [tokenField "token", idField, ownerField] {} fun d =>
    return ⟨← d.token, ← d.id, ← d.owner⟩

/-- An ERC-1155 balance. -/
def erc1155Balance : Json.Reader MultiTokenBalance :=
  Json.record [tokenField "token", accountField, idField, amountField "balance"] {} fun d =>
    return ⟨← d.token, ← d.account, ← d.id, ← d.amount⟩

/-- A tier report. -/
def tierReport : Json.Reader ReportEntry :=
  Json.record [tokenField "tierContract", accountField, amountField "report"] {} fun d =>
    return ⟨← d.token, ← d.account, ← d.amount⟩

/-! ## The snapshot -/

/-- The fields of a snapshot that were read so far. -/
structure Draft where
  blockNumber : Option Word := none
  blockTimestamp : Option Word := none
  sender : Option (Option Address) := none
  thisAddress : Option (Option Address) := none
  context : Option (List Word) := none
  erc20Balances : Option (List TokenBalance) := none
  erc20Supplies : Option (List TokenSupply) := none
  erc721Owners : Option (List NftOwner) := none
  erc1155Balances : Option (List MultiTokenBalance) := none
  tierReports : Option (List ReportEntry) := none

/-- The fields of a snapshot in order. -/
def fields : List (Json.Field Draft) :=
  [ .of "blockNumber" Draft.blockNumber (fun d v => { d with blockNumber := some v }) Json.word,
    .of "blockTimestamp" Draft.blockTimestamp
      (fun d v => { d with blockTimestamp := some v }) Json.word,
    .of "sender" Draft.sender (fun d v => { d with sender := some v })
      (Json.optional Json.address),
    .of "thisAddress" Draft.thisAddress (fun d v => { d with thisAddress := some v })
      (Json.optional Json.address),
    .of "context" Draft.context (fun d v => { d with context := some v })
      (Json.listOf Json.word),
    .of "erc20Balances" Draft.erc20Balances
      (fun d v => { d with erc20Balances := some v }) (Json.listOf erc20Balance),
    .of "erc20Supplies" Draft.erc20Supplies
      (fun d v => { d with erc20Supplies := some v }) (Json.listOf erc20Supply),
    .of "erc721Owners" Draft.erc721Owners
      (fun d v => { d with erc721Owners := some v }) (Json.listOf erc721Owner),
    .of "erc1155Balances" Draft.erc1155Balances
      (fun d v => { d with erc1155Balances := some v }) (Json.listOf erc1155Balance),
    .of "tierReports" Draft.tierReports
      (fun d v => { d with tierReports := some v }) (Json.listOf tierReport) ]

/-- The snapshot of the fields; missing ones are empty. -/
def Draft.finish (d : Draft) : Snapshot where
  blockNumber := d.blockNumber.getD Word.zero
  blockTimestamp := d.blockTimestamp.getD Word.zero
  sender := d.sender.getD none
  thisAddress := d.thisAddress.getD none
  context := d.context.getD []
  erc20Balances := d.erc20Balances.getD []
  erc20Supplies := d.erc20Supplies.getD []
  erc721Owners := d.erc721Owners.getD []
  erc1155Balances := d.erc1155Balances.getD []
  tierReports := d.tierReports.getD []

/-- Reads a snapshot. -/
def reader : Json.Reader Snapshot := Json.record fields {} fun d => some d.finish

/-- The snapshot in a JSON text. -/
def ofJson (text : String) : Except Json.ReadError Snapshot := Json.read reader text.toList

end Snapshot

end WordMachine
