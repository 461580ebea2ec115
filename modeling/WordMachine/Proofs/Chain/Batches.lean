import WordMachine.Proofs.Evaluation.Instructions
import WordMachine.Proofs.Word.Bytes
import WordMachine.Proofs.Word.Value

/-!
# Balances in batches

A batch of balances takes a token, accounts and ids from the stack in one window, and a single
balance takes the three values that it is about.  On a chain in memory, a batch of any size leaves
the balances that single reads of its accounts and ids leave, in their order.

## Main results

* `Address.eq_ofWord_of_toNat` — the address in the low 160 bits of a word
* `Action.erc1155BalanceOf_apply`, `Action.erc1155BalanceOfBatch_apply` — the two instructions, on
  a chain that answers
* `batch_read_agrees_with_single_reads` — one batch and its single reads
-/

namespace WordMachine

/-! ## The address in a word -/

namespace Address

/-- An address is the one in a word if its word has the low 160 bits of that word. -/
theorem eq_ofWord_of_toNat {a : Address} {w : Word} (h : a.toWord.toNat = w.toNat % 2 ^ 160) :
    a = ofWord w := by
  rw [← toNat_toWord_ofWord, Word.toNat_inj] at h
  exact toWord_inj.mp h

end Address

/-! ## The two instructions -/

namespace Action

variable {env : Environment} {chain : Chain} {m : Machine} {base : List Word} {token : Word}

/-- A single balance, on a chain that has it. -/
theorem erc1155BalanceOf_apply (hchain : env.chain = some chain) {account id balance : Word}
    (hstack : m.stack = base ++ [token, account, id])
    (h : chain (.erc1155BalanceOf (.ofWord token) (.ofWord account) id) = .ok balance) :
    erc1155BalanceOf env m = ⟨.ok (), { m with stack := base ++ [balance] },
      [.asked (.erc1155BalanceOf (.ofWord token) (.ofWord account) id)]⟩ := by
  rw [erc1155BalanceOf, bind_apply_ok (popTriple_apply base hstack)]
  dsimp only
  rw [bind_apply_ok (ask_apply hchain h _)]
  rfl

/-- A batch of balances, on a chain that has as many as were asked for. -/
theorem erc1155BalanceOfBatch_apply (hchain : env.chain = some chain) {operand : UInt8}
    {accounts ids balances : List Word} (haccounts : accounts.length = operand.toNat)
    (hids : ids.length = operand.toNat) (hstack : m.stack = base ++ token :: (accounts ++ ids))
    (h : chain (.erc1155BalanceOfBatch (.ofWord token) (accounts.map .ofWord) ids)
      = .ok balances) (hbalances : balances.length = operand.toNat) :
    erc1155BalanceOfBatch env operand m = ⟨.ok (), { m with stack := base ++ balances },
      [.asked (.erc1155BalanceOfBatch (.ofWord token) (accounts.map .ofWord) ids)]⟩ := by
  have hsize : 1 + 2 * operand.toNat = (accounts ++ ids).length + 1 := by
    rw [List.length_append]
    omega
  have htake : (accounts ++ ids).take operand.toNat = accounts := List.take_left' haccounts
  have hdrop : (accounts ++ ids).drop operand.toNat = ids := List.drop_left' haccounts
  rw [erc1155BalanceOfBatch]
  dsimp only
  rw [hsize, bind_apply_ok (popWindow_apply base hstack)]
  dsimp only
  rw [htake, hdrop, bind_apply_ok (ask_apply hchain h _), if_pos hbalances]
  rfl

end Action

/-! ## A chain in memory -/

namespace Ledger

private theorem chain_erc1155BalanceOfBatch (l : Ledger) (token : Address) {accounts : List Address}
    {ids : List Word} (h : accounts.length = ids.length) :
    l.chain (.erc1155BalanceOfBatch token accounts ids)
      = .ok (List.zipWith (l.erc1155Balance token) accounts ids) := by
  rw [chain, if_pos h]

end Ledger

/-- On every chain in memory, a batch of any size succeeds on a token, accounts and ids, which may
be any words, and leaves in their place one balance for each account and the id at the same place:
the one that the single read leaves, which is what is known of the addresses in the low 160 bits of
the token and the account. -/
theorem batch_read_agrees_with_single_reads (l : Ledger) {env : Environment}
    (hchain : env.chain = some l.chain) (nested : Option (Nat → Action Unit)) (operand : UInt8)
    {m : Machine} {base accounts ids : List Word} {token : Word}
    (haccounts : accounts.length = operand.toNat) (hids : ids.length = operand.toNat)
    (hstack : m.stack = base ++ token :: (accounts ++ ids)) :
    ∃ (balances : List Word) (hbalances : balances.length = operand.toNat),
      Action.execute env nested .erc1155BalanceOfBatch operand m
        = ⟨.ok (), { m with stack := base ++ balances },
            [.asked (.erc1155BalanceOfBatch (.ofWord token) (accounts.map .ofWord) ids)]⟩ ∧
      ∀ (k : Nat) (hk : k < operand.toNat),
        (∀ anyOperand, Action.execute env nested .erc1155BalanceOf anyOperand
            { m with stack := base ++ [token, accounts[k], ids[k]] }
          = ⟨.ok (), { m with stack := base ++ [balances[k]] },
              [.asked (.erc1155BalanceOf (.ofWord token) (.ofWord accounts[k]) ids[k])]⟩) ∧
        ∀ contract account : Address, contract.toWord.toNat = token.toNat % 2 ^ 160 →
          account.toWord.toNat = accounts[k].toNat % 2 ^ 160 →
          balances[k]
            = (l.erc1155Balances.find? (contract, account, ids[k])).getD Word.zero := by
  let balances := List.zipWith (l.erc1155Balance (.ofWord token)) (accounts.map .ofWord) ids
  have hbatch : l.chain (.erc1155BalanceOfBatch (.ofWord token) (accounts.map .ofWord) ids)
      = .ok balances :=
    l.chain_erc1155BalanceOfBatch _ (by rw [List.length_map, haccounts, hids])
  have hbalances : balances.length = operand.toNat := by
    rw [List.length_zipWith, List.length_map, haccounts, hids, Nat.min_self]
  have hbalance : ∀ (k : Nat) (hk : k < operand.toNat),
      balances[k] = l.erc1155Balance (.ofWord token) (.ofWord accounts[k]) ids[k] := by
    intro k hk
    rw [List.getElem_zipWith, List.getElem_map]
  refine ⟨balances, hbalances, ?batch, fun k hk => ⟨fun anyOperand => ?single, ?value⟩⟩
  case batch =>
    exact Action.erc1155BalanceOfBatch_apply hchain haccounts hids hstack hbatch hbalances
  case single =>
    refine Action.erc1155BalanceOf_apply hchain rfl ?_
    rw [hbalance k hk]
    rfl
  case value =>
    rintro contract account hcontract haccount
    rw [hbalance k hk, Address.eq_ofWord_of_toNat hcontract, Address.eq_ofWord_of_toNat haccount,
      Ledger.erc1155Balance]

/-- The largest word stands for the token; one of the two accounts has a balance of the second
id. -/
theorem batch_read_agrees_with_single_reads_of_two :
    let token : Address := ⟨List.replicate 20 255, rfl⟩
    let account : Address := ⟨List.replicate 19 0 ++ [2], rfl⟩
    let l := Ledger.ofFacts [.erc1155Balance token account Word.one (Word.ofSmall 7)]
    let accounts := [Word.one, ⟨2, 0, 0, 5⟩]
    let ids := [Word.one, Word.one]
    let m : Machine := ⟨[Word.zero] ++ Word.max :: (accounts ++ ids), [], [], [], [], 0, 0⟩
    accounts.length = (2 : UInt8).toNat ∧ ids.length = (2 : UInt8).toNat ∧
    m.stack = [Word.zero] ++ Word.max :: (accounts ++ ids) ∧
    ∃ balances : List Word,
      (Action.execute { chain := some l.chain } none .erc1155BalanceOfBatch 2 m).machine.stack
        = [Word.zero] ++ balances ∧ balances[1]? = some (Word.ofSmall 7) := by
  intro token account l accounts ids m
  have hchain : ({ chain := some l.chain } : Environment).chain = some l.chain := rfl
  have haccounts : accounts.length = (2 : UInt8).toNat := rfl
  have hids : ids.length = (2 : UInt8).toNat := rfl
  have hstack : m.stack = [Word.zero] ++ Word.max :: (accounts ++ ids) := rfl
  obtain ⟨balances, hbalances, hbatch, heach⟩ :=
    batch_read_agrees_with_single_reads l hchain none 2 haccounts hids hstack
  refine ⟨haccounts, hids, hstack, ?_⟩
  refine ⟨balances, by rw [hbatch], ?_⟩
  have htoken : token.toWord.toNat = Word.max.toNat % 2 ^ 160 := by decide
  have haccount : account.toWord.toNat = (⟨2, 0, 0, 5⟩ : Word).toNat % 2 ^ 160 := by decide
  have hvalue := (heach 1 (by decide)).2 token account htoken haccount
  rw [List.getElem?_eq_getElem (hbalances ▸ by decide), hvalue]
  rfl

end WordMachine
