import WordMachine.Proofs.Word.Division

/-!
# Limb arithmetic is integer arithmetic

An operation on limbs that reports a flag gives the exact result modulo `2 ^ 256`, and the
flag says whether the exact result is a word.  So the operations that may have no result
have exactly the exact one, and those that stop at the nearest word stop there.

The schoolbook product adds a digit, a product of two limbs and a carry in one accumulator.
At their largest, these three make up the largest number below `2 ^ 128`.  Here the product
is computed once more with an accumulator that refuses anything larger, and it refuses
nothing.

## Main definitions

* `Word.mulFull128?` — the schoolbook product with an accumulator of 128 bits
* `Word.IsExact` — the result of an operation is the exact one, if that is a word

## Main results

* `Word.mulFull128?_eq` — the accumulator is always large enough
* `Word.isExact_add?`, `Word.isExact_sub?`, `Word.isExact_mul?` — exact results
* `Word.toNat_addSat`, `Word.toNat_subSat`, `Word.toNat_mulSat` — results at the nearest word
* `Word.limb_arithmetic_is_exact` — all operations of both kinds
-/

namespace WordMachine.Word

/-! ## The product in 128 bits -/

/-- A number, if an accumulator of 128 bits can hold it. -/
def within128? (n : Nat) : Option Nat := if n < 2 ^ 128 then some n else none

/-- A cell of the product, with each number on the way to it held in the accumulator: the
product of the limbs, then the digit with it, then the carry on top. -/
def mulCell128? (digit a b : UInt64) (carry : Nat) : Option Nat := do
  let product ← within128? (a.toNat * b.toNat)
  let raised ← within128? (digit.toNat + product)
  within128? (raised + carry)

/-- A row of the product, each cell of it held in the accumulator. -/
def mulRow128? (a : UInt64) (b row : Word) : Option (Word × UInt64) := do
  let t0 ← mulCell128? row.limb0 a b.limb0 0
  let t1 ← mulCell128? row.limb1 a b.limb1 (t0 / UInt64.size)
  let t2 ← mulCell128? row.limb2 a b.limb2 (t1 / UInt64.size)
  let t3 ← mulCell128? row.limb3 a b.limb3 (t2 / UInt64.size)
  return (⟨.ofNat t0, .ofNat t1, .ofNat t2, .ofNat t3⟩, .ofNat (t3 / UInt64.size))

/-- The exact product as a low and a high word, each cell of it held in the accumulator. -/
def mulFull128? (a b : Word) : Option (Word × Word) := do
  let (r0, c0) ← mulRow128? a.limb0 b zero
  let (r1, c1) ← mulRow128? a.limb1 b ⟨r0.limb1, r0.limb2, r0.limb3, c0⟩
  let (r2, c2) ← mulRow128? a.limb2 b ⟨r1.limb1, r1.limb2, r1.limb3, c1⟩
  let (r3, c3) ← mulRow128? a.limb3 b ⟨r2.limb1, r2.limb2, r2.limb3, c2⟩
  return (⟨r0.limb0, r1.limb0, r2.limb0, r3.limb0⟩, ⟨r3.limb1, r3.limb2, r3.limb3, c3⟩)

theorem within128?_of_lt {n : Nat} (h : n < 2 ^ 128) : within128? n = some n := if_pos h

/-- With a carry of 64 bits, a cell fits into the accumulator and hands on such a carry. -/
theorem mulCell128?_eq (digit a b : UInt64) {carry : Nat} (hcarry : carry < 2 ^ 64) :
    mulCell128? digit a b carry = some (mulCell digit a b carry) ∧
      mulCell digit a b carry / UInt64.size < 2 ^ 64 := by
  have hcell := mulCell_lt digit a b hcarry
  have hsize : UInt64.size = 2 ^ 64 := rfl
  constructor
  · -- what comes before the carry is no larger than the cell
    rw [mulCell] at hcell ⊢
    rw [mulCell128?, within128?_of_lt (by omega), Option.bind_eq_bind, Option.bind_some,
      within128?_of_lt (by omega), Option.bind_some, within128?_of_lt hcell]
  · rw [hsize]
    exact Nat.div_lt_of_lt_mul hcell

private theorem mulRow128?_eq (a : UInt64) (b row : Word) :
    mulRow128? a b row = some (mulRow a b row) := by
  obtain ⟨h0, hcarry0⟩ := mulCell128?_eq row.limb0 a b.limb0 (by decide : 0 < 2 ^ 64)
  obtain ⟨h1, hcarry1⟩ := mulCell128?_eq row.limb1 a b.limb1 hcarry0
  obtain ⟨h2, hcarry2⟩ := mulCell128?_eq row.limb2 a b.limb2 hcarry1
  obtain ⟨h3, -⟩ := mulCell128?_eq row.limb3 a b.limb3 hcarry2
  simp only [mulRow128?, h0, h1, h2, h3, Option.bind_eq_bind, Option.bind_some]
  rfl

/-- The accumulator can hold whatever the product puts into it. -/
theorem mulFull128?_eq (a b : Word) : a.mulFull128? b = some (a.mulFull b) := by
  simp only [mulFull128?, mulRow128?_eq, Option.bind_eq_bind, Option.bind_some]
  rfl

/-! ## Values and flags -/

private theorem addCarry_flag_iff (a b : Word) :
    (a.addCarry b).2 = true ↔ 2 ^ 256 ≤ a.toNat + b.toNat := by
  have hexact := toNat_addCarry a b
  have hvalue := (a.addCarry b).1.toNat_lt
  have hflag := Bool.toNat_le (a.addCarry b).2
  rw [← Bool.toNat_eq_one]
  omega

private theorem toNat_addCarry_fst (a b : Word) :
    (a.addCarry b).1.toNat = (a.toNat + b.toNat) % 2 ^ 256 := by
  have hvalue := (a.addCarry b).1.toNat_lt
  rw [← toNat_addCarry, Nat.add_mul_mod_self_left, Nat.mod_eq_of_lt hvalue]

private theorem subBorrow_flag_iff (a b : Word) : (a.subBorrow b).2 = true ↔ a.toNat < b.toNat := by
  have hexact := toNat_subBorrow a b
  have hvalue := (a.subBorrow b).1.toNat_lt
  have ha := a.toNat_lt
  have hflag := Bool.toNat_le (a.subBorrow b).2
  rw [← Bool.toNat_eq_one]
  omega

private theorem toNat_subBorrow_fst (a b : Word) :
    ((a.subBorrow b).1.toNat : Int) = ((a.toNat : Int) - b.toNat) % 2 ^ 256 := by
  have hwrapped : (a.subBorrow b).1.toNat = (2 ^ 256 + a.toNat - b.toNat) % 2 ^ 256 :=
    toNat_subWrap a b
  have hb := b.toNat_lt
  omega

private theorem mulOverflow_flag_iff (a b : Word) :
    (a.mulOverflow b).2 = true ↔ 2 ^ 256 ≤ a.toNat * b.toNat := by
  have hexact := toNat_mulFull a b
  have hlow := (a.mulFull b).1.toNat_lt
  have hzero : (a.mulOverflow b).2 = true ↔ (a.mulFull b).2.toNat ≠ 0 := by
    rw [Ne, ← isZero_iff, mulOverflow]
    simp
  rw [hzero]
  omega

private theorem toNat_mulOverflow_fst (a b : Word) :
    (a.mulOverflow b).1.toNat = a.toNat * b.toNat % 2 ^ 256 := by
  have hlow : (a.mulOverflow b).1 = (a.mulFull b).1 := rfl
  have hvalue := (a.mulFull b).1.toNat_lt
  rw [hlow, ← toNat_mulFull, Nat.add_mul_mod_self_left, Nat.mod_eq_of_lt hvalue]

/-! ## Results that may not exist -/

/-- The result of an operation is the word whose value is the exact one, and there is none
exactly if no word has that value. -/
structure IsExact (result : Option Word) (exact : Int) : Prop where
  eq_some_iff : ∀ value, result = some value ↔ (value.toNat : Int) = exact
  eq_none_iff : result = none ↔ ¬ (0 ≤ exact ∧ exact < 2 ^ 256)

/-- An operation that makes the word of a number, where the exact value is that of a word, is
exact. -/
theorem IsExact.of_ite {exact : Int} {n : Nat} {inRange : Prop} [Decidable inRange]
    (hrange : inRange ↔ 0 ≤ exact ∧ exact < 2 ^ 256) (hvalue : inRange → (n : Int) = exact) :
    IsExact (if inRange then some (ofNat n) else none) exact := by
  by_cases h : inRange
  · have hn := hvalue h
    obtain ⟨-, hlt⟩ := hrange.mp h
    rw [if_pos h]
    constructor
    · intro value
      rw [Option.some_inj, eq_comm, eq_ofNat_iff (by omega)]
      omega
    · exact iff_of_false (Option.some_ne_none _) (not_not_intro (hrange.mp h))
  · rw [if_neg h]
    constructor
    · intro value
      have hlt := value.toNat_lt
      refine iff_of_false (by simp) fun heq => h (hrange.mpr ?_)
      omega
    · exact iff_of_true rfl (mt hrange.mpr h)

theorem isExact_add? (a b : Word) : IsExact (a.add? b) (a.toNat + b.toNat) := by
  rw [add?_eq]
  exact .of_ite (by omega) (by omega)

theorem isExact_sub? (a b : Word) : IsExact (a.sub? b) (a.toNat - b.toNat) := by
  have ha := a.toNat_lt
  rw [sub?_eq]
  exact .of_ite (by omega) (by omega)

theorem isExact_mul? (a b : Word) : IsExact (a.mul? b) (a.toNat * b.toNat) := by
  rw [mul?_eq]
  have hproduct : ((a.toNat * b.toNat : Nat) : Int) = a.toNat * b.toNat := Int.natCast_mul _ _
  exact .of_ite (by omega) (by omega)

private theorem div?_eq_some_iff (a b quotient : Word) :
    a.div? b = some quotient ↔ b.toNat ≠ 0 ∧ quotient.toNat = a.toNat / b.toNat := by
  have hlt : a.toNat / b.toNat < 2 ^ 256 := Nat.lt_of_le_of_lt (Nat.div_le_self _ _) a.toNat_lt
  rw [div?_eq]
  split
  · next hzero => simp [hzero]
  · next hb => rw [Option.some_inj, eq_comm, eq_ofNat_iff hlt, and_iff_right hb]

private theorem mod?_eq_some_iff (a b remainder : Word) :
    a.mod? b = some remainder ↔ b.toNat ≠ 0 ∧ remainder.toNat = a.toNat % b.toNat := by
  have hlt : a.toNat % b.toNat < 2 ^ 256 := Nat.lt_of_le_of_lt (Nat.mod_le _ _) a.toNat_lt
  rw [mod?_eq]
  split
  · next hzero => simp [hzero]
  · next hb => rw [Option.some_inj, eq_comm, eq_ofNat_iff hlt, and_iff_right hb]

/-! ## Results at the nearest word -/

private theorem toNat_max : max.toNat = 2 ^ 256 - 1 := rfl

theorem toNat_addSat (a b : Word) :
    (a.addSat b).toNat = min (a.toNat + b.toNat) (2 ^ 256 - 1) := by
  rw [addSat, add?_eq]
  split
  · next hfits =>
      rw [Option.getD_some, toNat_ofNat_of_lt hfits]
      omega
  · rw [Option.getD_none, toNat_max]
    omega

theorem toNat_subSat (a b : Word) : (a.subSat b).toNat = a.toNat - b.toNat := by
  have ha := a.toNat_lt
  rw [subSat, sub?_eq]
  split
  · rw [Option.getD_some, toNat_ofNat_of_lt (by omega)]
  · rw [Option.getD_none, toNat_zero]
    omega

theorem toNat_mulSat (a b : Word) :
    (a.mulSat b).toNat = min (a.toNat * b.toNat) (2 ^ 256 - 1) := by
  rw [mulSat, mul?_eq]
  split
  · next hfits =>
      rw [Option.getD_some, toNat_ofNat_of_lt hfits]
      omega
  · rw [Option.getD_none, toNat_max]
    omega

/-- Arithmetic on limbs is arithmetic on integers.  Sums, differences and products are exact
modulo `2 ^ 256`, and their flags say whether the exact result is a word; on the way to a
product, no accumulator exceeds 128 bits.  An operation that may have no result has the exact
one if that is a word, and else none.  An operation that always has a result has the word
nearest to the exact one. -/
theorem limb_arithmetic_is_exact (a b : Word) :
    ((a.addCarry b).1.toNat = (a.toNat + b.toNat) % 2 ^ 256 ∧
      ((a.addCarry b).2 = true ↔ 2 ^ 256 ≤ a.toNat + b.toNat)) ∧
    (((a.subBorrow b).1.toNat : Int) = ((a.toNat : Int) - b.toNat) % 2 ^ 256 ∧
      ((a.subBorrow b).2 = true ↔ a.toNat < b.toNat)) ∧
    ((a.mulOverflow b).1.toNat = a.toNat * b.toNat % 2 ^ 256 ∧
      ((a.mulOverflow b).2 = true ↔ 2 ^ 256 ≤ a.toNat * b.toNat) ∧
      a.mulFull128? b = some (a.mulFull b)) ∧
    (IsExact (a.add? b) (a.toNat + b.toNat) ∧
      IsExact (a.sub? b) (a.toNat - b.toNat) ∧
      IsExact (a.mul? b) (a.toNat * b.toNat) ∧
      (∀ quotient, a.div? b = some quotient ↔
        b.toNat ≠ 0 ∧ quotient.toNat = a.toNat / b.toNat) ∧
      ∀ remainder, a.mod? b = some remainder ↔
        b.toNat ≠ 0 ∧ remainder.toNat = a.toNat % b.toNat) ∧
    (a.addSat b).toNat = min (a.toNat + b.toNat) (2 ^ 256 - 1) ∧
    (a.mulSat b).toNat = min (a.toNat * b.toNat) (2 ^ 256 - 1) ∧
    ((a.subSat b).toNat : Int) = Max.max ((a.toNat : Int) - b.toNat) 0 := by
  refine ⟨⟨toNat_addCarry_fst a b, addCarry_flag_iff a b⟩,
    ⟨toNat_subBorrow_fst a b, subBorrow_flag_iff a b⟩,
    ⟨toNat_mulOverflow_fst a b, mulOverflow_flag_iff a b, mulFull128?_eq a b⟩,
    ⟨isExact_add? a b, isExact_sub? a b, isExact_mul? a b, div?_eq_some_iff a b,
      mod?_eq_some_iff a b⟩,
    toNat_addSat a b, toNat_mulSat a b, ?_⟩
  rw [toNat_subSat]
  omega

end WordMachine.Word
