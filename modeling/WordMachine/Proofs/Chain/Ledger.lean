import Mathlib.Data.Set.Card
import WordMachine.Chain.Snapshot
import WordMachine.Proofs.Word.Text

/-!
# What a ledger answers

A ledger is built from facts, one after the other, and keeps them in registers by kind.  A query
that names a thing is answered with the latest fact about that very thing: what `Ledger.known?`
finds in the registers is what the list of facts says last, whatever else was recorded before,
between and after.  The number of ids that an account owns is counted over a whole register; it is
right because a register never has two entries for one key.

## Main definitions

* `Fact.tells?`, `latest?` — what one fact says about a query, and what facts in order say last
* `ownedIds` — the ids of a token that an account owns in the end
* `Query.RestsOn` — the queries about things that a query is answered from
* `Chain.AnswersFrom` — the answers of a chain, from the latest facts

## Main results

* `Register.find?_insert`, `Register.countP_insert` — registers, one entry at a time
* `Ledger.known?_record`, `Ledger.known?_ofFacts` — one fact, and any history of facts
* `Ledger.ncard_ownedIds`, `Ledger.ncard_ownedIds_concat` — owned ids are counted once
* `Ledger.answersFrom_ofFacts`, `Chain.AnswersFrom.congr` — the answers, and what they rest on
* `ledger_answers_from_latest_facts` — what is known of every ledger
-/

namespace WordMachine

/-! ## Registers -/

namespace Register

variable {κ ν : Type} [DecidableEq κ] (r : Register κ ν) (key : κ) (value : ν)

/-- The key that was set has its value, and the others have the values they had. -/
theorem find?_insert (other : κ) :
    (r.insert key value).find? other = if key = other then some value else r.find? other := by
  induction r with
  | nil => rfl
  | cons entry rest ih =>
      obtain ⟨k, v⟩ := entry
      rw [insert]
      split
      · next hk =>
          subst hk
          rw [find?, find?]
          split <;> rfl
      · next hk =>
          rw [find?, find?, ih]
          split
          · next hother =>
              subst hother
              rw [if_neg (Ne.symm hk)]
          · rfl

private theorem map_fst_insert :
    (r.insert key value).map Prod.fst
      = if key ∈ r.map Prod.fst then r.map Prod.fst else r.map Prod.fst ++ [key] := by
  induction r with
  | nil => rfl
  | cons entry rest ih =>
      obtain ⟨k, v⟩ := entry
      rw [insert]
      by_cases hk : k = key
      · simp [hk]
      · rw [if_neg hk, List.map_cons, ih]
        by_cases hmem : key ∈ rest.map Prod.fst
        · rw [if_pos hmem, List.map_cons, if_pos (List.mem_cons_of_mem _ hmem)]
        · rw [if_neg hmem, List.map_cons, if_neg (by simpa [Ne.symm hk] using hmem),
            List.cons_append]

/-- A register with at most one entry for each key remains one. -/
theorem nodup_insert {r : Register κ ν} (h : (r.map Prod.fst).Nodup) :
    ((r.insert key value).map Prod.fst).Nodup := by
  rw [map_fst_insert]
  split
  · exact h
  · next hmem => exact List.nodup_append_comm.mp (List.nodup_cons.mpr ⟨hmem, h⟩)

/-- With at most one entry for each key, every entry is found. -/
theorem find?_eq_some_iff {r : Register κ ν} {key : κ} {value : ν}
    (h : (r.map Prod.fst).Nodup) : r.find? key = some value ↔ (key, value) ∈ r := by
  induction r with
  | nil => simp [find?]
  | cons entry rest ih =>
      obtain ⟨k, v⟩ := entry
      obtain ⟨hfresh, hrest⟩ := List.nodup_cons.mp h
      rw [find?]
      split
      · next hk =>
          subst hk
          have hnot : (k, value) ∉ rest := fun hmem => hfresh (List.mem_map.mpr ⟨_, hmem, rfl⟩)
          simp [hnot, eq_comm]
      · next hk => simp [ih hrest, Ne.symm hk]

/-- Among the entries of some kind, the new entry takes the place of the one that the key had. -/
theorem countP_insert (p : κ × ν → Bool) :
    (r.insert key value).countP p + ((r.find? key).any fun old => p (key, old)).toNat
      = r.countP p + (p (key, value)).toNat := by
  have hone (b : Bool) : b.toNat = if b then 1 else 0 := by cases b <;> rfl
  induction r with
  | nil => simp [insert, find?, hone]
  | cons entry rest ih =>
      obtain ⟨k, v⟩ := entry
      rw [insert, find?]
      split
      · next hk =>
          subst hk
          simp only [List.countP_cons, Option.any_some, hone]
          omega
      · next hk =>
          simp only [List.countP_cons]
          omega

end Register

/-! ## Facts about a thing -/

/-- What a fact says about the thing that a query names: an answer, if the fact is of the kind of
the query and about that very thing. -/
def Fact.tells? (f : Fact) (q : Query) : Option q.Answer :=
  match f, q with
  | .block number _, .blockNumber => some number
  | .block number timestamp, .blockTimestamp wanted =>
    if number = wanted then some timestamp else none
  | .erc20Balance t a balance, .erc20BalanceOf token account =>
    if (t, a) = (token, account) then some balance else none
  | .erc20Supply t supply, .erc20TotalSupply token => if t = token then some supply else none
  | .erc20SnapshotBalance t a s balance, .erc20SnapshotBalanceOfAt token account snapshot =>
    if (t, a, s) = (token, account, snapshot) then some balance else none
  | .erc20SnapshotSupply t s supply, .erc20SnapshotTotalSupplyAt token snapshot =>
    if (t, s) = (token, snapshot) then some supply else none
  | .erc721Owner t i owner, .erc721OwnerOf token id =>
    if (t, i) = (token, id) then some owner else none
  | .erc1155Balance t a i balance, .erc1155BalanceOf token account id =>
    if (t, a, i) = (token, account, id) then some balance else none
  | .tierReport c a report, .tierReport contract account _ =>
    if (c, a) = (contract, account) then some report else none
  | _, _ => none

/-- What the latest fact about the thing that a query names says. -/
def latest? (facts : List Fact) (q : Query) : Option q.Answer :=
  (facts.filterMap (Fact.tells? · q)).getLast?

private theorem latest?_concat (facts : List Fact) (f : Fact) (q : Query) :
    latest? (facts ++ [f]) q = (f.tells? q).or (latest? facts q) := by
  unfold latest?
  cases h : f.tells? q <;> simp [h]

/-- A fact that says nothing about a thing may be left out. -/
theorem latest?_of_tells?_eq_none {f : Fact} {q : Query} (h : f.tells? q = none)
    (before after : List Fact) :
    latest? (before ++ f :: after) q = latest? (before ++ after) q := by
  simp [latest?, h]

/-- The ids of a token whose latest owner is an account. -/
def ownedIds (facts : List Fact) (token account : Address) : Set Word :=
  {id | latest? facts (.erc721OwnerOf token id) = some account}

namespace Ledger

/-- What the registers have about the thing that a query names. -/
def known? (l : Ledger) : (q : Query) → Option q.Answer
  | .blockNumber => some l.blockNumber
  | .blockTimestamp block => l.timestamps.find? block
  | .erc20BalanceOf token account => l.erc20Balances.find? (token, account)
  | .erc20TotalSupply token => l.erc20Supplies.find? token
  | .erc20SnapshotBalanceOfAt token account snapshot =>
    l.erc20SnapshotBalances.find? (token, account, snapshot)
  | .erc20SnapshotTotalSupplyAt token snapshot => l.erc20SnapshotSupplies.find? (token, snapshot)
  | .erc721OwnerOf token id => l.erc721Owners.find? (token, id)
  | .erc1155BalanceOf token account id => l.erc1155Balances.find? (token, account, id)
  | .tierReport contract account _ => l.tierReports.find? (contract, account)
  | .erc721BalanceOf .. | .erc1155BalanceOfBatch .. | .tierReportTimeForTier .. => none

/-- One fact: about the thing that it is about, it is what is known then; about all other things,
the same is known as before. -/
theorem known?_record (l : Ledger) (f : Fact) (q : Query) :
    (l.record f).known? q = (f.tells? q).or (l.known? q) := by
  have hif {α : Type} (c : Prop) [Decidable c] (v : α) (known : Option α) :
      (if c then some v else none).or known = if c then some v else known := by
    split <;> rfl
  cases f <;> cases q <;>
    simp only [record, known?, Fact.tells?, Register.find?_insert, hif, Option.none_or,
      Option.some_or]

private theorem ofFacts_concat (facts : List Fact) (f : Fact) :
    ofFacts (facts ++ [f]) = (ofFacts facts).record f := by
  rw [ofFacts, ofFacts, List.foldl_append]
  rfl

/-- Any history of facts: what is known in the end is the latest fact about the thing. -/
theorem known?_ofFacts (facts : List Fact) (q : Query) :
    (ofFacts facts).known? q = (latest? facts q).or (known? {} q) := by
  induction facts using List.reverseRecOn with
  | nil => rfl
  | append_singleton facts f ih =>
      rw [ofFacts_concat, known?_record, ih, latest?_concat, Option.or_assoc]

/-- The thing that a query names is known from the facts alone, the current block apart. -/
theorem find?_ofFacts {facts : List Fact} {q : Query} (h : known? {} q = none) :
    (ofFacts facts).known? q = latest? facts q := by
  rw [known?_ofFacts, h, Option.or_none]

/-! ## Owned ids -/

private theorem latest?_erc721OwnerOf (facts : List Fact) (token : Address) (id : Word) :
    latest? facts (.erc721OwnerOf token id) = (ofFacts facts).erc721Owners.find? (token, id) := by
  rw [← find?_ofFacts rfl, known?]

/-- In every history there is at most one owner for each id of a token. -/
theorem nodup_erc721Owners (facts : List Fact) :
    ((ofFacts facts).erc721Owners.map Prod.fst).Nodup := by
  induction facts using List.reverseRecOn with
  | nil => exact List.nodup_nil
  | append_singleton facts f ih =>
      rw [ofFacts_concat]
      cases f with
      | erc721Owner token id owner => exact Register.nodup_insert _ _ ih
      | _ => exact ih

/-- The entries that make an account the owner of ids of a token. -/
def owns (token account : Address) : (Address × Word) × Address → Bool :=
  fun ((t, _), owner) => t == token && owner == account

private theorem owns_iff {token account t owner : Address} {id : Word} :
    owns token account ((t, id), owner) = true ↔ t = token ∧ owner = account := by
  simp [owns]

/-- The ids that an account owns, each once. -/
theorem exists_list_ownedIds (facts : List Fact) (token account : Address) :
    ∃ ids : List Word, ids.Nodup ∧ ids.length = (ofFacts facts).ownedCount token account ∧
      ownedIds facts token account = {id | id ∈ ids} := by
  have hnodup := nodup_erc721Owners facts
  let owned := (ofFacts facts).erc721Owners.filter (owns token account)
  have howned : ((owned.map Prod.fst).map Prod.snd).Nodup := by
    refine List.Nodup.map_on ?_ (hnodup.sublist (List.filter_sublist.map _))
    -- the keys of owned ids have the token in common, so that the ids tell them apart
    have htoken : ∀ key ∈ owned.map Prod.fst, key.1 = token := by
      rintro key hkey
      obtain ⟨⟨⟨t, id⟩, owner⟩, hentry, rfl⟩ := List.mem_map.mp hkey
      exact (owns_iff.mp (List.mem_filter.mp hentry).2).1
    exact fun x hx y hy hid => Prod.ext ((htoken x hx).trans (htoken y hy).symm) hid
  refine ⟨_, howned, ?_, ?_⟩
  · rw [List.length_map, List.length_map, ← List.countP_eq_length_filter]
    rfl
  · refine Set.ext fun id => ?_
    show latest? facts (.erc721OwnerOf token id) = some account ↔ id ∈ List.map Prod.snd _
    rw [latest?_erc721OwnerOf, Register.find?_eq_some_iff hnodup]
    constructor
    · intro hentry
      have hmem : ((token, id), account) ∈ owned :=
        List.mem_filter.mpr ⟨hentry, owns_iff.mpr ⟨rfl, rfl⟩⟩
      exact List.mem_map_of_mem (List.mem_map_of_mem hmem)
    · intro hid
      obtain ⟨key, hkey, rfl⟩ := List.mem_map.mp hid
      obtain ⟨⟨⟨t, i⟩, owner⟩, hentry, rfl⟩ := List.mem_map.mp hkey
      obtain ⟨hmem, howns⟩ := List.mem_filter.mp hentry
      obtain ⟨rfl, rfl⟩ := owns_iff.mp howns
      exact hmem

/-- The count over the whole register is the number of ids that the account owns in the end. -/
theorem ncard_ownedIds (facts : List Fact) (token account : Address) :
    (ownedIds facts token account).ncard = (ofFacts facts).ownedCount token account := by
  obtain ⟨ids, hnodup, hlength, hids⟩ := exists_list_ownedIds facts token account
  rw [hids, ← List.coe_toFinset, Set.ncard_coe_finset, List.toFinset_card_of_nodup hnodup, hlength]

private theorem finite_ownedIds (facts : List Fact) (token account : Address) :
    (ownedIds facts token account).Finite := by
  obtain ⟨ids, -, -, hids⟩ := exists_list_ownedIds facts token account
  rw [hids]
  exact ids.finite_toSet

/-- A new owner of an id has one more, the account that owned it before has one less, and an
account that owned it already has as many as before. -/
theorem ncard_ownedIds_concat (facts : List Fact) (token : Address) (id : Word)
    (owner account : Address) :
    (ownedIds (facts ++ [.erc721Owner token id owner]) token account).ncard
        + (decide (latest? facts (.erc721OwnerOf token id) = some account)).toNat
      = (ownedIds facts token account).ncard + (decide (owner = account)).toNat := by
  have howns (old : Address) :
      owns token account ((token, id), old) = decide (old = account) := by
    simp [owns, beq_eq_decide]
  have hany (known : Option Address) :
      (known.any fun old => owns token account ((token, id), old))
        = decide (known = some account) := by
    cases known <;> simp [howns]
  rw [ncard_ownedIds, ncard_ownedIds, ofFacts_concat, latest?_erc721OwnerOf]
  have hcount := (ofFacts facts).erc721Owners.countP_insert (token, id) owner (owns token account)
  rwa [hany, howns] at hcount

end Ledger

/-! ## Answers -/

/-- The queries about things that a query is answered from: a count of ids from the owners of all
ids of the token, a batch from each of its balances, a report or a time in it from the report
without a context, and every other query from the thing that it names. -/
def Query.RestsOn (q named : Query) : Prop :=
  match q with
  | .erc721BalanceOf token _ => ∃ id, named = .erc721OwnerOf token id
  | .erc1155BalanceOfBatch token accounts ids =>
    ∃ entry ∈ accounts.zip ids, named = .erc1155BalanceOf token entry.1 entry.2
  | .tierReport contract account _ | .tierReportTimeForTier contract account _ _ =>
    named = .tierReport contract account []
  | _ => named = q

/-- The answers of a chain are those of the latest facts.  What nothing is known of is zero for
balances and supplies, a word of ones for reports (no tier is held), and an error for owners and
timestamps.  (An account's ids are counted with a number of 64 bits.) -/
structure Chain.AnswersFrom (chain : Chain) (facts : List Fact) : Prop where
  blockNumber : chain .blockNumber = .ok ((latest? facts .blockNumber).getD Word.zero)
  blockTimestamp (block : Word) :
    chain (.blockTimestamp block)
      = (latest? facts (.blockTimestamp block)).elim
          (.error (.queryFailed "block_timestamp"
            ("no timestamp recorded for block " ++ block.decimal))) .ok
  erc20BalanceOf (token account : Address) :
    chain (.erc20BalanceOf token account)
      = .ok ((latest? facts (.erc20BalanceOf token account)).getD Word.zero)
  erc20TotalSupply (token : Address) :
    chain (.erc20TotalSupply token)
      = .ok ((latest? facts (.erc20TotalSupply token)).getD Word.zero)
  erc20SnapshotBalanceOfAt (token account : Address) (snapshot : Word) :
    chain (.erc20SnapshotBalanceOfAt token account snapshot)
      = .ok ((latest? facts (.erc20SnapshotBalanceOfAt token account snapshot)).getD Word.zero)
  erc20SnapshotTotalSupplyAt (token : Address) (snapshot : Word) :
    chain (.erc20SnapshotTotalSupplyAt token snapshot)
      = .ok ((latest? facts (.erc20SnapshotTotalSupplyAt token snapshot)).getD Word.zero)
  erc721BalanceOf (token account : Address) :
    (ownedIds facts token account).Finite ∧ ∃ balance,
      chain (.erc721BalanceOf token account) = .ok balance ∧
        balance.toNat = (ownedIds facts token account).ncard % 2 ^ 64
  erc721OwnerOf (token : Address) (id : Word) :
    chain (.erc721OwnerOf token id)
      = (latest? facts (.erc721OwnerOf token id)).elim
          (.error (.queryFailed "erc721_owner_of"
            ("token " ++ id.decimal ++ " of " ++ token.text ++ " does not exist"))) .ok
  erc1155BalanceOf (token account : Address) (id : Word) :
    chain (.erc1155BalanceOf token account id)
      = .ok ((latest? facts (.erc1155BalanceOf token account id)).getD Word.zero)
  erc1155BalanceOfBatch (token : Address) (accounts : List Address) (ids : List Word) :
    chain (.erc1155BalanceOfBatch token accounts ids)
      = if accounts.length = ids.length then
          .ok (List.zipWith
            (fun account id => (latest? facts (.erc1155BalanceOf token account id)).getD Word.zero)
            accounts ids)
        else
          .error (.queryFailed "erc1155_balance_of_batch"
            (Text.decimal accounts.length ++ " accounts but " ++ Text.decimal ids.length
              ++ " ids"))
  tierReport (contract account : Address) (context : List Word) :
    chain (.tierReport contract account context)
      = .ok ((latest? facts (.tierReport contract account [])).getD Word.max)
  tierReportTimeForTier (contract account : Address) (tier : UInt8) (context : List Word) :
    chain (.tierReportTimeForTier contract account tier context)
      = .ok (Report.timeForTier
          ((latest? facts (.tierReport contract account [])).getD Word.max) tier)

namespace Ledger

theorem answersFrom_ofFacts (facts : List Fact) : (ofFacts facts).chain.AnswersFrom facts where
  blockNumber := by
    have hknown := known?_ofFacts facts .blockNumber
    rw [known?, known?, Option.or_some, Option.some_inj] at hknown
    rw [chain, hknown]
  blockTimestamp block := by
    rw [← find?_ofFacts rfl, chain, known?]
    cases (ofFacts facts).timestamps.find? block <;> rfl
  erc20BalanceOf token account := by
    rw [← find?_ofFacts rfl, chain, known?]
  erc20TotalSupply token := by
    rw [← find?_ofFacts rfl, chain, known?]
  erc20SnapshotBalanceOfAt token account snapshot := by
    rw [← find?_ofFacts rfl, chain, known?]
  erc20SnapshotTotalSupplyAt token snapshot := by
    rw [← find?_ofFacts rfl, chain, known?]
  erc721BalanceOf token account := by
    refine ⟨finite_ownedIds facts token account, _, rfl, ?_⟩
    rw [ncard_ownedIds, Word.toNat_ofSmall_mod]
  erc721OwnerOf token id := by
    rw [← find?_ofFacts rfl, chain, known?]
    cases (ofFacts facts).erc721Owners.find? (token, id) <;> rfl
  erc1155BalanceOf token account id := by
    rw [← find?_ofFacts rfl, chain, known?, erc1155Balance]
  erc1155BalanceOfBatch token accounts ids := by
    have hbalance : (fun account id =>
          (latest? facts (.erc1155BalanceOf token account id)).getD Word.zero)
        = (ofFacts facts).erc1155Balance token := by
      funext account id
      rw [← find?_ofFacts rfl, known?, erc1155Balance]
    rw [hbalance, chain]
  tierReport contract account context := by
    rw [← find?_ofFacts rfl, chain, known?, report, Report.neverHeld]
  tierReportTimeForTier contract account tier context := by
    rw [← find?_ofFacts rfl, chain, known?, report, Report.neverHeld]

end Ledger

/-- Two histories that say the same last about everything that a query is answered from give it
the same answer. -/
theorem Chain.AnswersFrom.congr {chain chain' : Chain} {facts facts' : List Fact}
    (h : chain.AnswersFrom facts) (h' : chain'.AnswersFrom facts') {q : Query}
    (hlatest : ∀ named, q.RestsOn named → latest? facts named = latest? facts' named) :
    chain q = chain' q := by
  cases q with
  | blockNumber => rw [h.blockNumber, h'.blockNumber, hlatest _ rfl]
  | blockTimestamp => rw [h.blockTimestamp, h'.blockTimestamp, hlatest _ rfl]
  | erc20BalanceOf => rw [h.erc20BalanceOf, h'.erc20BalanceOf, hlatest _ rfl]
  | erc20TotalSupply => rw [h.erc20TotalSupply, h'.erc20TotalSupply, hlatest _ rfl]
  | erc20SnapshotBalanceOfAt =>
      rw [h.erc20SnapshotBalanceOfAt, h'.erc20SnapshotBalanceOfAt, hlatest _ rfl]
  | erc20SnapshotTotalSupplyAt =>
      rw [h.erc20SnapshotTotalSupplyAt, h'.erc20SnapshotTotalSupplyAt, hlatest _ rfl]
  | erc721BalanceOf token account =>
      have hids : ownedIds facts token account = ownedIds facts' token account := by
        refine Set.ext fun id => ?_
        change latest? facts (.erc721OwnerOf token id) = some account
          ↔ latest? facts' (.erc721OwnerOf token id) = some account
        rw [hlatest _ ⟨id, rfl⟩]
      obtain ⟨-, balance, hbalance, hcount⟩ := h.erc721BalanceOf token account
      obtain ⟨-, balance', hbalance', hcount'⟩ := h'.erc721BalanceOf token account
      rw [← hids] at hcount'
      rw [hbalance, hbalance', Word.toNat_inj.mp (hcount.trans hcount'.symm)]
  | erc721OwnerOf => rw [h.erc721OwnerOf, h'.erc721OwnerOf, hlatest _ rfl]
  | erc1155BalanceOf => rw [h.erc1155BalanceOf, h'.erc1155BalanceOf, hlatest _ rfl]
  | erc1155BalanceOfBatch token accounts ids =>
      rw [h.erc1155BalanceOfBatch, h'.erc1155BalanceOfBatch, ← List.map_uncurry_zip_eq_zipWith,
        ← List.map_uncurry_zip_eq_zipWith]
      congr 2
      refine List.map_congr_left fun entry hentry => ?_
      change (latest? facts _).getD _ = (latest? facts' _).getD _
      rw [hlatest _ ⟨entry, hentry, rfl⟩]
  | tierReport => rw [h.tierReport, h'.tierReport, hlatest _ rfl]
  | tierReportTimeForTier =>
      rw [h.tierReportTimeForTier, h'.tierReportTimeForTier, hlatest _ rfl]

/-- Whatever facts a ledger was built from, in any order and any number, it answers with the latest
ones, also when a snapshot describes them, block first and then list by list; a fact that says
nothing about the things that a query is answered from can be left out wherever it stands; and a
fact about the owner of an id moves one id from the account that owned it to the new owner, and
none if that is the same account. -/
theorem ledger_answers_from_latest_facts :
    (∀ facts, (Ledger.ofFacts facts).chain.AnswersFrom facts) ∧
    (∀ s : Snapshot, ∃ chain, s.environment.chain = some chain ∧
      chain.AnswersFrom (.block s.blockNumber s.blockTimestamp ::
        (s.erc20Balances.map (fun e => .erc20Balance e.token e.account e.balance)
          ++ s.erc20Supplies.map (fun e => .erc20Supply e.token e.supply)
          ++ s.erc721Owners.map (fun e => .erc721Owner e.token e.id e.owner)
          ++ s.erc1155Balances.map (fun e => .erc1155Balance e.token e.account e.id e.balance)
          ++ s.tierReports.map (fun e => .tierReport e.contract e.account e.report)))) ∧
    (∀ (before after : List Fact) (f : Fact) (q : Query),
      (∀ named, q.RestsOn named → f.tells? named = none) →
        (Ledger.ofFacts (before ++ f :: after)).chain q
          = (Ledger.ofFacts (before ++ after)).chain q) ∧
    ∀ (facts : List Fact) (token : Address) (id : Word) (owner account : Address),
      (ownedIds (facts ++ [.erc721Owner token id owner]) token account).ncard
          + (decide (latest? facts (.erc721OwnerOf token id) = some account)).toNat
        = (ownedIds facts token account).ncard + (decide (owner = account)).toNat := by
  refine ⟨Ledger.answersFrom_ofFacts, ?snapshot, ?other, Ledger.ncard_ownedIds_concat⟩
  case snapshot =>
    exact fun s => ⟨_, rfl, Ledger.answersFrom_ofFacts _⟩
  case other =>
    intro before after f q hnothing
    refine (Ledger.answersFrom_ofFacts _).congr (Ledger.answersFrom_ofFacts _) ?_
    exact fun named hnamed => latest?_of_tells?_eq_none (hnothing named hnamed) before after

/-- A balance of another token standard is registered between two owners of one id. -/
theorem ledger_answers_from_latest_facts_of_owners :
    let token : Address := ⟨List.replicate 20 1, rfl⟩
    let account : Address := ⟨List.replicate 20 2, rfl⟩
    let before : List Fact := [.erc721Owner token Word.one token]
    let after : List Fact := [.erc721Owner token Word.one account]
    let f : Fact := .erc1155Balance token account Word.one Word.max
    (∀ named, (Query.erc721BalanceOf token account).RestsOn named → f.tells? named = none) ∧
    (Ledger.ofFacts (before ++ f :: after)).chain (.erc721BalanceOf token account)
      = (Ledger.ofFacts (before ++ after)).chain (.erc721BalanceOf token account) ∧
    (Ledger.ofFacts (before ++ f :: after)).chain (.erc721BalanceOf token account)
      = .ok Word.one ∧
    (Ledger.ofFacts (before ++ f :: after)).chain (.erc721BalanceOf token token)
      = .ok Word.zero := by
  intro token account before after f
  have hnothing : ∀ named, (Query.erc721BalanceOf token account).RestsOn named →
      f.tells? named = none := by
    rintro _ ⟨id, rfl⟩
    rfl
  refine ⟨hnothing, ?_, by decide, by decide⟩
  exact ledger_answers_from_latest_facts.2.2.1 before after f _ hnothing

end WordMachine
