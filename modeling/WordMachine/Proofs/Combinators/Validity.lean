import WordMachine.Proofs.Combinators.Gates
import WordMachine.Proofs.Combinators.Multipliers
import WordMachine.Proofs.Linking.Validity

/-!
# What combinators make of well-formed programs

A combinator links the programs it is given with programs of its own, and those are made of
instructions that fit in their places.  So whatever passes the check still passes it after any
number of combinators.

## Main definitions

* `Combinator.OpFits` — an instruction that fits in its place, which can be decided

## Main results

* `Combinator.wellFormed_of_code` — programs made of instructions
* `checked_programs_are_closed_under_linking` — linking, shifting and every combinator
-/

namespace WordMachine

namespace Combinator

/-! ## Programs made of instructions -/

/-- An instruction that reads no constant past a pool and names one of a number of
sources. -/
def OpFits (pool count : Nat) (op : Instruction × UInt8) : Prop :=
  (op.1 = .constant → ¬ Fetch.goesPast op.2 pool) ∧
    (op.1 = .zipmap → (Zip.decode op.2).source.toNat < count)

instance (pool count : Nat) (op : Instruction × UInt8) : Decidable (OpFits pool count op) :=
  inferInstanceAs (Decidable (_ ∧ _))

private theorem OpFits.pairFits {pool count : Nat} {op : Instruction × UInt8}
    (h : OpFits pool count op) :
    PairFits pool count (op.1.opcode, op.2) where
  constant hconstant := h.1 (Instruction.opcode_inj.mp hconstant)
  zipmap target htarget := by
    obtain ⟨hzipmap, rfl⟩ := zipTarget?_eq_some_iff.mp htarget
    exact h.2 (Instruction.opcode_inj.mp hzipmap)

/-- A program whose sources are made of instructions that fit. -/
theorem wellFormed_of_code {p : Program} (opss : List (List (Instruction × UInt8))) (pool : Nat)
    (hsources : p.sources = opss.map code) (hpool : p.constants.length = pool)
    (hfits : ∀ ops ∈ opss, ∀ op ∈ ops, OpFits pool opss.length op) : p.WellFormed := by
  apply Program.SelfContained.wellFormed
  constructor
  · rw [hsources]
    intro source hsource
    obtain ⟨ops, -, rfl⟩ := List.mem_map.mp hsource
    exact isWhole_code ops
  · rw [hsources, hpool, List.length_map]
    intro source hsource pair hpair
    obtain ⟨ops, hops, rfl⟩ := List.mem_map.mp hsource
    rw [pairs_code] at hpair
    obtain ⟨op, hop, rfl⟩ := List.mem_map.mp hpair
    exact (hfits ops hops op hop).pairFits

private theorem wellFormed_value (w : Word) : (value w).WellFormed :=
  wellFormed_of_code [[(.constant, 0)]] 1 rfl rfl (by decide)

private theorem wellFormed_timeGate (c : Comparison) (bound : Word) :
    (timeGate (Program.comparisonInstruction c) bound).WellFormed := by
  refine wellFormed_of_code
    [[(.blockTimestamp, 0), (.constant, 0), (Program.comparisonInstruction c, 0), (.isZero, 0)]] 1
    rfl rfl ?_
  cases c <;> decide

private theorem wellFormed_ownerGate (owner : Address) : (ownerGate owner).WellFormed :=
  wellFormed_of_code [[(.sender, 0), (.constant, 0), (.equalTo, 0)]] 1 rfl rfl (by decide)

private theorem wellFormed_discount (table : Vector UInt32 8) (contract : Address) :
    (tierProgram (code discount) 4 table contract 11).WellFormed :=
  wellFormed_of_code [discount, _] 5 rfl rfl (by decide)

private theorem wellFormed_multiplier (table : Vector UInt32 8) (contract : Address) :
    (tierProgram (code multiplier) 0 table contract 10).WellFormed :=
  wellFormed_of_code [multiplier, _] 5 rfl rfl (by decide)

/-! ## Combinators -/

variable {programs : List Program} {a b p q : Program}

/-- Instructions that follow a program and read neither constants nor sources. -/
theorem wellFormed_followedBy (hp : p.WellFormed) {ops : List (Instruction × UInt8)}
    (hops : ∀ op ∈ ops, OpFits 0 0 op) (h : followedBy p ops = .ok q) : q.WellFormed := by
  refine hp.link (wellFormed_of_code [ops] 0 rfl rfl fun ops' hops' op hop => ?_) h
  rw [List.mem_singleton.mp hops'] at hop
  exact ⟨(hops op hop).1, fun hzipmap => absurd ((hops op hop).2 hzipmap) (Nat.not_lt_zero _)⟩

private theorem wellFormed_negation (hp : p.WellFormed) (h : negation p = .ok q) : q.WellFormed :=
  wellFormed_followedBy hp (by decide) h

private theorem wellFormed_onPair (ha : a.WellFormed) (hb : b.WellFormed)
    {ops : List (Instruction × UInt8)} (hops : ∀ op ∈ ops, OpFits 0 0 op)
    (h : onPair a b ops = .ok q) : q.WellFormed := by
  obtain ⟨all, hall, h⟩ := except_bind_eq_ok h
  exact wellFormed_followedBy (ha.linkPair hb hall) hops h

private theorem wellFormed_xnor (ha : a.WellFormed) (hb : b.WellFormed) (h : xnor a b = .ok q) :
    q.WellFormed := by
  obtain ⟨a', ha', h⟩ := except_bind_eq_ok h
  obtain ⟨b', hb', h⟩ := except_bind_eq_ok h
  exact wellFormed_onPair (wellFormed_negation ha ha') (wellFormed_negation hb hb') (by decide) h

private theorem wellFormed_xor (ha : a.WellFormed) (hb : b.WellFormed)
    (h : Combinator.xor a b = .ok q) : q.WellFormed := by
  obtain ⟨r, hr, h⟩ := except_bind_eq_ok h
  exact wellFormed_negation (wellFormed_xnor ha hb hr) h

private theorem wellFormed_conditional {condition whenTrue whenFalse : Program}
    (hc : condition.WellFormed) (ht : whenTrue.WellFormed) (hf : whenFalse.WellFormed)
    (h : conditional condition whenTrue whenFalse = .ok q) : q.WellFormed := by
  obtain ⟨all, hall, h⟩ := except_bind_eq_ok h
  exact wellFormed_followedBy (.linkAll (by simp [hc, ht, hf]) hall) (by decide) h

section

variable (hall : ∀ p ∈ programs, p.WellFormed)
include hall

/-- An instruction over all values is one that reads neither constants nor sources. -/
theorem wellFormed_reduce {instruction : Instruction} (hconstant : instruction ≠ .constant)
    (hzipmap : instruction ≠ .zipmap) (h : reduce programs instruction = .ok q) :
    q.WellFormed := by
  obtain ⟨n, -, h⟩ := except_bind_eq_ok h
  obtain ⟨linked, hlinked, h⟩ := except_bind_eq_ok h
  refine wellFormed_followedBy (.linkAll hall hlinked) ?_ h
  simp [OpFits, hconstant, hzipmap]

private theorem wellFormed_nand (h : nand programs = .ok q) : q.WellFormed := by
  obtain ⟨r, hr, h⟩ := except_bind_eq_ok h
  exact wellFormed_negation (wellFormed_reduce hall (by decide) (by decide) hr) h

private theorem wellFormed_nor (h : nor programs = .ok q) : q.WellFormed := by
  obtain ⟨r, hr, h⟩ := except_bind_eq_ok h
  exact wellFormed_negation (wellFormed_reduce hall (by decide) (by decide) hr) h

end

private theorem wellFormed_boundGates (start stop : Option Word) :
    ∀ gate ∈ boundGates start stop, gate.WellFormed := by
  intro gate hgate
  unfold boundGates at hgate
  simp only [List.mem_append, Option.mem_toList, Option.map_eq_some_iff] at hgate
  rcases hgate with ⟨bound, -, rfl⟩ | ⟨bound, -, rfl⟩
  · exact wellFormed_timeGate .less bound
  · exact wellFormed_timeGate .greater bound

private theorem wellFormed_during (hp : p.WellFormed) {start stop : Option Word}
    (h : during p start stop = .ok q) : q.WellFormed := by
  by_cases hnone : start = none ∧ stop = none
  · obtain ⟨rfl, rfl⟩ := hnone
    cases h
    exact hp
  · rw [during_eq_conditional p hnone] at h
    obtain ⟨condition, hcondition, h⟩ := except_bind_eq_ok h
    have hgates := wellFormed_reduce (wellFormed_boundGates start stop) (by decide) (by decide)
      hcondition
    exact wellFormed_conditional hgates hp (wellFormed_value Word.zero) h

private theorem wellFormed_ownedBy (hp : p.WellFormed) {owner : Address} {fallback : Word}
    (h : ownedBy p owner fallback = .ok q) : q.WellFormed :=
  wellFormed_conditional (wellFormed_ownerGate owner) hp (wellFormed_value fallback) h

private theorem wellFormed_discounted (hp : p.WellFormed) {contract : Address}
    {table : Vector UInt32 8} (h : discounted p contract table = .ok q) : q.WellFormed :=
  hp.link (wellFormed_discount table contract) (link_of_discounted h).2

private theorem wellFormed_multiplied (hp : p.WellFormed) {contract : Address}
    {table : Vector UInt32 8} (h : multiplied p contract table = .ok q) : q.WellFormed :=
  hp.link (wellFormed_multiplier table contract) (link_of_multiplied h)

end Combinator

open Combinator in
/-- Programs that pass the check are closed under linking.  If two of them are linked, under
any options, the result passes the check, and besides none of its constant reads goes past its
pool.  The same check is passed by a program that is shifted up the stack, by programs that are
linked in a row, and by whatever a combinator makes of programs that pass it. -/
theorem checked_programs_are_closed_under_linking :
    (∀ (a b c : Program) (options : LinkOptions), a.check = .ok () → b.check = .ok () →
      a.link b options = .ok c → c.check = .ok () ∧
        ∀ code ∈ c.sources, ∀ operand, (Instruction.constant.opcode, operand) ∈ pairs code →
          operand &&& argumentFlag = 0 → operand.toNat < c.constants.length) ∧
    (∀ p q : Program, p.check = .ok () →
      (∀ offset, p.shiftStack offset = .ok q → q.check = .ok ()) ∧
      (negation p = .ok q → q.check = .ok ()) ∧
      (∀ start stop, during p start stop = .ok q → q.check = .ok ()) ∧
      (∀ owner fallback, ownedBy p owner fallback = .ok q → q.check = .ok ()) ∧
      (∀ contract table, discounted p contract table = .ok q → q.check = .ok ()) ∧
      (∀ contract table, multiplied p contract table = .ok q → q.check = .ok ())) ∧
    (∀ a b q : Program, a.check = .ok () → b.check = .ok () →
      (∀ reassign, a.linkPair b reassign = .ok q → q.check = .ok ()) ∧
      (Combinator.xor a b = .ok q → q.check = .ok ()) ∧
      (xnor a b = .ok q → q.check = .ok ()) ∧
      (equal a b = .ok q → q.check = .ok ()) ∧
      (greater a b = .ok q → q.check = .ok ()) ∧
      (less a b = .ok q → q.check = .ok ()) ∧
      (atLeast a b = .ok q → q.check = .ok ()) ∧
      (atMost a b = .ok q → q.check = .ok ())) ∧
    (∀ condition whenTrue whenFalse q : Program, condition.check = .ok () →
      whenTrue.check = .ok () → whenFalse.check = .ok () →
      conditional condition whenTrue whenFalse = .ok q → q.check = .ok ()) ∧
    (∀ (programs : List Program) (q : Program), (∀ p ∈ programs, p.check = .ok ()) →
      (∀ reassign, Program.linkAll programs reassign = .ok q → q.check = .ok ()) ∧
      (sum programs = .ok q → q.check = .ok ()) ∧
      (product programs = .ok q → q.check = .ok ()) ∧
      (least programs = .ok q → q.check = .ok ()) ∧
      (greatest programs = .ok q → q.check = .ok ()) ∧
      (conjunction programs = .ok q → q.check = .ok ()) ∧
      (disjunction programs = .ok q → q.check = .ok ()) ∧
      (nand programs = .ok q → q.check = .ok ()) ∧
      (nor programs = .ok q → q.check = .ok ())) := by
  simp only [Program.check_eq_ok_iff]
  refine ⟨?_, ?_, ?_, ?_, ?_⟩
  · intro a b c options ha hb h
    have hc := (Link.linked_of_link_eq_ok h).selfContained ha hb
    exact ⟨hc.wellFormed, hc.constant_lt⟩
  · intro p q hp
    exact ⟨fun _ => hp.shiftStack, wellFormed_negation hp, fun _ _ => wellFormed_during hp,
      fun _ _ => wellFormed_ownedBy hp, fun _ _ => wellFormed_discounted hp,
      fun _ _ => wellFormed_multiplied hp⟩
  · intro a b q ha hb
    exact ⟨fun _ => ha.linkPair hb, wellFormed_xor ha hb, wellFormed_xnor ha hb,
      wellFormed_onPair ha hb (by decide), wellFormed_onPair ha hb (by decide),
      wellFormed_onPair ha hb (by decide), wellFormed_onPair ha hb (by decide),
      wellFormed_onPair ha hb (by decide)⟩
  · intro condition whenTrue whenFalse q hc ht hf
    exact wellFormed_conditional hc ht hf
  · intro programs q hall
    have hreduce : ∀ instruction, instruction ≠ .constant → instruction ≠ .zipmap →
        reduce programs instruction = .ok q → q.WellFormed :=
      fun _ hconstant hzipmap => wellFormed_reduce hall hconstant hzipmap
    exact ⟨fun _ => .linkAll hall, hreduce .add (by decide) (by decide),
      hreduce .mul (by decide) (by decide), hreduce .min (by decide) (by decide),
      hreduce .max (by decide) (by decide), hreduce .every (by decide) (by decide),
      hreduce .any (by decide) (by decide), wellFormed_nand hall, wellFormed_nor hall⟩

/-- Two programs with sources that read an argument past the pool.  One is appended to such a
source of the other, and both are added up. -/
theorem checked_programs_are_closed_under_linking_of_arguments :
    let a : Program := ⟨[ Combinator.code [(.constant, 0), (.constant, 1), (.zipmap, 1)],
      Combinator.code [(.constant, 2)] ], [Word.ofSmall 5, Word.ofSmall 6], 0, 0⟩
    let b : Program := ⟨[ Combinator.code [(.constant, 0), (.stack, 0), (.zipmap, 0x21)],
      Combinator.code [(.constant, 0x80), (.constant, 1), (.add, 2)] ], [Word.ofSmall 7], 0, 0⟩
    let c : Program := ⟨[ Combinator.code [(.constant, 0), (.constant, 1), (.zipmap, 1)],
      Combinator.code [(.constant, 0x80), (.constant, 2), (.stack, 0), (.zipmap, 0x22)],
      Combinator.code [(.constant, 0x80), (.constant, 0x80), (.add, 2)] ],
      [Word.ofSmall 5, Word.ofSmall 6, Word.ofSmall 7], 0, 0⟩
    let total : Program := ⟨[ Combinator.code [(.constant, 0), (.constant, 1), (.zipmap, 1),
        (.constant, 2), (.stack, 1), (.zipmap, 0x22), (.add, 2)],
      Combinator.code [(.constant, 0x80)],
      Combinator.code [(.constant, 0x80), (.constant, 0x80), (.add, 2)] ],
      [Word.ofSmall 5, Word.ofSmall 6, Word.ofSmall 7], 0, 0⟩
    (a.check = .ok () ∧ b.check = .ok ()) ∧
      (a.link b { spliceAt := 1 } = .ok c ∧ c.check = .ok ()) ∧
      (Combinator.sum [a, b] = .ok total ∧ total.check = .ok ()) := by
  intro a b c total
  have ha : a.check = .ok () := by decide
  have hb : b.check = .ok () := by decide
  have hlink : a.link b { spliceAt := 1 } = .ok c := by decide
  have hsum : Combinator.sum [a, b] = .ok total := by decide
  obtain ⟨hlinked, -, -, -, hlists⟩ := checked_programs_are_closed_under_linking
  have hall : ∀ p ∈ [a, b], p.check = .ok () := by simp [ha, hb]
  obtain ⟨-, htotal, -⟩ := hlists [a, b] total hall
  exact ⟨⟨ha, hb⟩, ⟨hlink, (hlinked a b c _ ha hb hlink).1⟩, hsum, htotal hsum⟩

end WordMachine
