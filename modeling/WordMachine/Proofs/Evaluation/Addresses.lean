import WordMachine.Proofs.Evaluation.Underflows
import WordMachine.Proofs.Text.Numeral
import WordMachine.Proofs.Word.Bytes

/-!
# Addresses among words

An address on the stack is a word, and only the low 160 bits of the word count.  Instructions that
read from outside take their addresses first and make addresses of them before anything else, so
words that hold the same addresses lead to the same queries, the same answers and the same
machine.

Each of these instructions takes its values in one step, in one of a few shapes.  What is done
with them afterwards is compared once for each shape, whatever it is.

## Main definitions

* `Instruction.addressInputs?` — how many addresses an instruction takes
* `SameAddresses` — words that hold the same addresses

## Main results

* `Address.parse_text` — an address is read from its text
* `Action.takeTop_bind_congr` — values matter only in what is done with them
* `Action.execute_congr` — instructions see addresses, and not the words that hold them
* `addresses_and_words_convert_without_loss` — addresses as words, as text and on the stack
-/

namespace WordMachine

/-- An address is read from its text. -/
theorem Address.parse_text (a : Address) : parse a.text = .ok a := by
  have hread : parse? a.text.toList = some a := by
    rw [text, String.toList_ofList, parse?]
    show (Text.hexBytes? (Text.hexText a.bytes)).bind _ = _
    rw [Text.hexBytes?_hexText, Option.bind_some]
    exact dif_pos a.length_bytes
  rw [parse, hread]

/-- How many of the values that an instruction takes are addresses, counted from the deepest one.
Instructions that do not read from outside are not here. -/
def Instruction.addressInputs? (operand : UInt8) : Instruction → Option Nat
  | .blockNumber | .sender | .thisAddress | .blockTimestamp => some 0
  | .erc20TotalSupply | .erc20SnapshotTotalSupplyAt | .erc721OwnerOf => some 1
  | .erc20BalanceOf | .erc20SnapshotBalanceOfAt | .erc721BalanceOf | .erc1155BalanceOf
  | .tierReport | .tierReportTimeForTier => some 2
  | .erc1155BalanceOfBatch => some (1 + operand.toNat)
  | _ => none

/-- Words that hold the same addresses, in the same order. -/
abbrev SameAddresses : List Word → List Word → Prop :=
  List.Forall₂ fun w w' => Address.ofWord w = Address.ofWord w'

private theorem SameAddresses.map_eq {words words' : List Word} (h : SameAddresses words words') :
    words.map Address.ofWord = words'.map Address.ofWord := by
  induction h with
  | nil => rfl
  | cons hword _ ih => rw [List.map_cons, List.map_cons, hword, ih]

namespace Action

variable {α β : Type}

/-! ## Values that are seen alike -/

/-- Values that are taken off the stack matter only in what is done with them. -/
theorem takeTop_bind_congr {n : Nat} {view : List Word → Option α} {next : α → Action β}
    (m : Machine) (base : List Word) {window window' : List Word} (hlength : window.length = n)
    (hlength' : window'.length = n) {v v' : α} (hview : view window = some v)
    (hview' : view window' = some v') (hnext : next v = next v') :
    (takeTop n view >>= next) { m with stack := base ++ window }
      = (takeTop n view >>= next) { m with stack := base ++ window' } := by
  rw [bind_apply_ok (takeTop_apply rfl hlength hview),
    bind_apply_ok (takeTop_apply rfl hlength' hview'), hnext]

section Shapes

variable (m : Machine) (base : List Word)

private theorem pop_bind_congr {next : Word → Action β} {a a' : Word} (h : next a = next a') :
    (pop >>= next) { m with stack := base ++ [a] }
      = (pop >>= next) { m with stack := base ++ [a'] } := by
  rw [pop_eq_takeTop]
  exact takeTop_bind_congr m base rfl rfl rfl rfl h

private theorem popPair_bind_congr {next : Word × Word → Action β} {a b a' b' : Word}
    (h : next (a, b) = next (a', b')) :
    (popPair >>= next) { m with stack := base ++ [a, b] }
      = (popPair >>= next) { m with stack := base ++ [a', b'] } := by
  rw [popPair_eq_takeTop]
  exact takeTop_bind_congr m base rfl rfl rfl rfl h

private theorem popTriple_bind_congr {next : Word × Word × Word → Action β} {a b c a' b' c' : Word}
    (h : next (a, b, c) = next (a', b', c')) :
    (popTriple >>= next) { m with stack := base ++ [a, b, c] }
      = (popTriple >>= next) { m with stack := base ++ [a', b', c'] } := by
  rw [popTriple_eq_takeTop]
  exact takeTop_bind_congr m base rfl rfl rfl rfl h

variable {n : Nat} {rest rest' : List Word}

private theorem popWindow_bind_congr {next : Word × List Word → Action β} {a a' : Word}
    (hrest : 1 + rest.length = n) (hrest' : 1 + rest'.length = n)
    (h : next (a, rest) = next (a', rest')) :
    (popWindow n >>= next) { m with stack := base ++ a :: rest }
      = (popWindow n >>= next) { m with stack := base ++ a' :: rest' } := by
  rw [popWindow_eq_takeTop]
  exact takeTop_bind_congr m base (by rw [List.length_cons]; omega)
    (by rw [List.length_cons]; omega) rfl rfl h

private theorem popPairAnd_bind_congr {next : Word × Word × List Word → Action β} {a b a' b' : Word}
    (hrest : rest.length = n) (h : next (a, b, rest) = next (a', b', rest)) :
    (popPairAnd n >>= next) { m with stack := base ++ a :: b :: rest }
      = (popPairAnd n >>= next) { m with stack := base ++ a' :: b' :: rest } := by
  rw [popPairAnd_eq_takeTop]
  exact takeTop_bind_congr m base (by simp only [List.length_cons]; omega)
    (by simp only [List.length_cons]; omega) rfl rfl h

private theorem popTripleAnd_bind_congr {next : Word × Word × Word × List Word → Action β}
    {a b c a' b' : Word} (hrest : rest.length = n)
    (h : next (a, b, c, rest) = next (a', b', c, rest)) :
    (popTripleAnd n >>= next) { m with stack := base ++ a :: b :: c :: rest }
      = (popTripleAnd n >>= next) { m with stack := base ++ a' :: b' :: c :: rest } := by
  rw [popTripleAnd_eq_takeTop]
  exact takeTop_bind_congr m base (by simp only [List.length_cons]; omega)
    (by simp only [List.length_cons]; omega) rfl rfl h

end Shapes

/-! ## Instructions see addresses -/

private theorem erc1155BalanceOfBatch_congr (env : Environment) {operand : UInt8} (m : Machine)
    (base : List Word) {token token' : Word} {accounts accounts' ids : List Word}
    (haccounts : accounts.length = operand.toNat) (hids : ids.length = operand.toNat)
    (htoken : Address.ofWord token = Address.ofWord token')
    (hsame : SameAddresses accounts accounts') :
    erc1155BalanceOfBatch env operand { m with stack := base ++ token :: (accounts ++ ids) }
      = erc1155BalanceOfBatch env operand
          { m with stack := base ++ token' :: (accounts' ++ ids) } := by
  have haccounts' : accounts'.length = operand.toNat := hsame.length_eq ▸ haccounts
  refine popWindow_bind_congr m base (by rw [List.length_append]; omega)
    (by rw [List.length_append]; omega) ?_
  dsimp only
  rw [List.take_left' haccounts, List.take_left' haccounts', List.drop_left' haccounts,
    List.drop_left' haccounts', htoken, hsame.map_eq]

/-- An instruction that reads from outside goes the same way on all words that hold the same
addresses. -/
theorem execute_congr (env : Environment) (nested : Option (Nat → Action Unit))
    {instruction : Instruction} {operand : UInt8} {count : Nat}
    (hinputs : instruction.addressInputs? operand = some count) (m : Machine) (base : List Word)
    {addresses addresses' words : List Word} (hcount : addresses.length = count)
    (htaken : count + words.length = instruction.taken operand)
    (hsame : SameAddresses addresses addresses') :
    execute env nested instruction operand { m with stack := base ++ (addresses ++ words) }
      = execute env nested instruction operand
          { m with stack := base ++ (addresses' ++ words) } := by
  cases instruction with
  | blockNumber | sender | thisAddress | blockTimestamp =>
      cases hinputs
      cases List.length_eq_zero_iff.mp hcount
      cases hsame
      rfl
  | erc20TotalSupply =>
      cases hinputs
      obtain ⟨token, rfl⟩ := List.length_eq_one_iff.mp hcount
      cases List.length_eq_zero_iff.mp (Nat.add_left_cancel htaken)
      obtain _ | ⟨htoken, _ | _⟩ := hsame
      refine pop_bind_congr m base ?_
      rw [htoken]
  | erc20BalanceOf | erc721BalanceOf =>
      cases hinputs
      obtain ⟨token, account, rfl⟩ := List.length_eq_two.mp hcount
      cases List.length_eq_zero_iff.mp (Nat.add_left_cancel htaken)
      obtain _ | ⟨htoken, _ | ⟨haccount, _ | _⟩⟩ := hsame
      refine popPair_bind_congr m base ?_
      dsimp only
      rw [htoken, haccount]
  | erc20SnapshotTotalSupplyAt | erc721OwnerOf =>
      cases hinputs
      obtain ⟨token, rfl⟩ := List.length_eq_one_iff.mp hcount
      obtain ⟨word, rfl⟩ := List.length_eq_one_iff.mp (Nat.add_left_cancel htaken)
      obtain _ | ⟨htoken, _ | _⟩ := hsame
      refine popPair_bind_congr m base ?_
      dsimp only
      rw [htoken]
  | erc20SnapshotBalanceOfAt | erc1155BalanceOf =>
      cases hinputs
      obtain ⟨token, account, rfl⟩ := List.length_eq_two.mp hcount
      obtain ⟨word, rfl⟩ := List.length_eq_one_iff.mp (Nat.add_left_cancel htaken)
      obtain _ | ⟨htoken, _ | ⟨haccount, _ | _⟩⟩ := hsame
      refine popTriple_bind_congr m base ?_
      dsimp only
      rw [htoken, haccount]
  | erc1155BalanceOfBatch =>
      cases hinputs
      have hwords : 1 + operand.toNat + words.length = 1 + 2 * operand.toNat := htaken
      cases hsame with
      | nil => rfl
      | cons htoken haccounts =>
          rw [List.length_cons] at hcount
          exact erc1155BalanceOfBatch_congr env m base (by omega) (by omega) htoken haccounts
  | tierReport =>
      cases hinputs
      obtain ⟨contract, account, rfl⟩ := List.length_eq_two.mp hcount
      obtain _ | ⟨hcontract, _ | ⟨haccount, _ | _⟩⟩ := hsame
      refine popPairAnd_bind_congr m base (Nat.add_left_cancel htaken) ?_
      dsimp only
      rw [hcontract, haccount]
  | tierReportTimeForTier =>
      cases hinputs
      obtain ⟨contract, account, rfl⟩ := List.length_eq_two.mp hcount
      have hwords : 2 + words.length = 3 + operand.toNat := htaken
      obtain _ | ⟨wanted, context⟩ := words
      case nil => rw [List.length_nil] at hwords; omega
      rw [List.length_cons] at hwords
      obtain _ | ⟨hcontract, _ | ⟨haccount, _ | _⟩⟩ := hsame
      refine popTripleAnd_bind_congr m base (by omega) ?_
      dsimp only
      rw [hcontract, haccount]
  | _ => cases hinputs

end Action

/-! ## Without loss -/

/-- Every address survives its word, whose number is that of the bytes and has at most 160 digits,
and its text.  Every word keeps exactly its low 160 bits in its address.  An instruction that reads
from outside cannot tell words with the same low 160 bits apart: whatever the chain is, result,
machine and queries are the same if such words stand in the place of its addresses.  On a stack
that is too short for it, it looks at no word. -/
theorem addresses_and_words_convert_without_loss (a : Address) (w w' : Word) (env : Environment)
    (nested : Option (Nat → Action Unit)) :
    Address.ofWord a.toWord = a ∧
    (a.toWord.toNat = Word.bytesValue a.bytes ∧ a.toWord.toNat < 2 ^ 160) ∧
    Address.parse a.text = .ok a ∧
    (Address.ofWord w).toWord.toNat = w.toNat % 2 ^ 160 ∧
    (Address.ofWord w = Address.ofWord w' ↔ w.toNat % 2 ^ 160 = w'.toNat % 2 ^ 160) ∧
    ∀ (instruction : Instruction) (operand : UInt8) (count : Nat),
      instruction.addressInputs? operand = some count → ∀ m : Machine,
        (m.height < instruction.taken operand →
          Action.execute env nested instruction operand m
            = ⟨.error (.stackUnderflow (instruction.taken operand) m.height), m, []⟩) ∧
        ∀ base addresses addresses' words : List Word,
          addresses.length = count → count + words.length = instruction.taken operand →
          List.Forall₂ (fun v v' => v.toNat % 2 ^ 160 = v'.toNat % 2 ^ 160)
            addresses addresses' →
          Action.execute env nested instruction operand
              { m with stack := base ++ (addresses ++ words) }
            = Action.execute env nested instruction operand
                { m with stack := base ++ (addresses' ++ words) } := by
  refine ⟨a.ofWord_toWord, ⟨a.toNat_toWord, a.toNat_toWord_lt⟩, a.parse_text,
    Address.toNat_toWord_ofWord w, Address.ofWord_inj,
    fun instruction operand count hinputs m => ⟨?short, ?long⟩⟩
  case short =>
    have hzipmap : instruction ≠ .zipmap := fun h => by rw [h] at hinputs; cases hinputs
    have hselect : instruction ≠ .selectLte := fun h => by rw [h] at hinputs; cases hinputs
    exact Action.demands_execute env nested operand hzipmap hselect m
  case long =>
    intro base addresses addresses' words hcount htaken hsame
    exact Action.execute_congr env nested hinputs m base hcount htaken
      (hsame.imp fun _ _ => Address.ofWord_inj.mpr)

/-- A batch of two balances of the largest address, whose words have other high bits each time, and
the same batch on a stack without values. -/
theorem addresses_and_words_convert_without_loss_of_batch :
    let token : Address := ⟨List.replicate 20 255, rfl⟩
    let account : Address := ⟨List.replicate 19 0 ++ [2], rfl⟩
    let l := Ledger.ofFacts [.erc1155Balance token account Word.one (Word.ofSmall 7)]
    let env : Environment := { chain := some l.chain }
    let batch := Action.execute env none .erc1155BalanceOfBatch 2
    let addresses := [Word.max, ⟨2, 0, 0x100000000, 5⟩, Word.one]
    let addresses' := [token.toWord, account.toWord, ⟨1, 0, 0x8000000000000000, 9⟩]
    let ids := [Word.one, Word.zero]
    let m : Machine := ⟨[], [], [], [], [], 0, 0⟩
    Instruction.erc1155BalanceOfBatch.addressInputs? 2 = some 3 ∧
    m.height < Instruction.erc1155BalanceOfBatch.taken 2 ∧
    batch m = ⟨.error (.stackUnderflow 5 0), m, []⟩ ∧
    3 + ids.length = Instruction.erc1155BalanceOfBatch.taken 2 ∧
    List.Forall₂ (fun v v' => v.toNat % 2 ^ 160 = v'.toNat % 2 ^ 160) addresses addresses' ∧
    batch { m with stack := [Word.max] ++ (addresses ++ ids) }
      = batch { m with stack := [Word.max] ++ (addresses' ++ ids) } ∧
    (batch { m with stack := [Word.max] ++ (addresses ++ ids) }).machine.stack
      = [Word.max, Word.ofSmall 7, Word.zero] := by
  intro token account l env batch addresses addresses' ids m
  have hinputs : Instruction.erc1155BalanceOfBatch.addressInputs? 2 = some 3 := rfl
  have hshort : m.height < Instruction.erc1155BalanceOfBatch.taken 2 := by decide
  have htaken : 3 + ids.length = Instruction.erc1155BalanceOfBatch.taken 2 := rfl
  have hsame : List.Forall₂ (fun v v' => v.toNat % 2 ^ 160 = v'.toNat % 2 ^ 160)
      addresses addresses' :=
    .cons (by decide) <| .cons (by decide) <| .cons (by decide) .nil
  obtain ⟨-, -, -, -, -, hreads⟩ :=
    addresses_and_words_convert_without_loss token Word.max Word.zero env none
  obtain ⟨hunderflow, hbatch⟩ := hreads _ 2 3 hinputs m
  exact ⟨hinputs, hshort, hunderflow hshort, htaken, hsame,
    hbatch [Word.max] addresses addresses' ids rfl htaken hsame, rfl⟩

end WordMachine
