import Mathlib.Algebra.Order.Ring.Nat
import Mathlib.Tactic.Ring
import WordMachine.Word.Arithmetic

/-!
# The value of words

Limb by limb, the operations on words compute what they should on numbers: the
carries and borrows that ripple through the limbs, and the rows of the schoolbook
product, add up to the exact result.  So the forms that may have no result have
one exactly if it is below `2 ^ 256`.

## Main definitions

* `Word.ofNat` — the word of a number

## Main results

* `Word.toNat_lt`, `Word.toNat_inj`, `Word.toNat_ofNat` — words and numbers below
  `2 ^ 256`
* `Word.blt_iff`, `Word.isZero_iff` — comparison
* `Word.toNat_addCarry`, `Word.toNat_subBorrow`, `Word.toNat_mulFull` — exact results
* `Word.add?_eq`, `Word.sub?_eq`, `Word.mul?_eq` — results that may not exist
-/

namespace WordMachine.Word

/-! ## Words and numbers -/

theorem toNat_eq (w : Word) : w.toNat
    = w.limb0.toNat + 2 ^ 64 * w.limb1.toNat + 2 ^ 128 * w.limb2.toNat
      + 2 ^ 192 * w.limb3.toNat := by
  simp only [toNat, UInt64.size]
  omega

theorem toNat_lt (w : Word) : w.toNat < 2 ^ 256 := by
  have h0 := w.limb0.toNat_lt
  have h1 := w.limb1.toNat_lt
  have h2 := w.limb2.toNat_lt
  have h3 := w.limb3.toNat_lt
  rw [toNat_eq]
  omega

/-- Words with the same value are the same. -/
theorem toNat_inj {a b : Word} : a.toNat = b.toNat ↔ a = b := by
  constructor
  · intro h
    rw [toNat_eq, toNat_eq] at h
    have ha0 := a.limb0.toNat_lt
    have ha1 := a.limb1.toNat_lt
    have ha2 := a.limb2.toNat_lt
    have hb0 := b.limb0.toNat_lt
    have hb1 := b.limb1.toNat_lt
    have hb2 := b.limb2.toNat_lt
    apply Word.ext
    · exact UInt64.toNat_inj.mp (by omega)
    · exact UInt64.toNat_inj.mp (by omega)
    · exact UInt64.toNat_inj.mp (by omega)
    · exact UInt64.toNat_inj.mp (by omega)
  · rintro rfl
    rfl

/-- The word of a number, taken modulo `2 ^ 256`. -/
def ofNat (n : Nat) : Word :=
  ⟨.ofNat n, .ofNat (n / 2 ^ 64), .ofNat (n / 2 ^ 128), .ofNat (n / 2 ^ 192)⟩

theorem toNat_ofNat (n : Nat) : (ofNat n).toNat = n % 2 ^ 256 := by
  rw [toNat_eq]
  simp only [ofNat, UInt64.toNat_ofNat']
  omega

theorem toNat_ofNat_of_lt {n : Nat} (h : n < 2 ^ 256) : (ofNat n).toNat = n := by
  rw [toNat_ofNat, Nat.mod_eq_of_lt h]

@[simp] theorem ofNat_toNat (w : Word) : ofNat w.toNat = w :=
  toNat_inj.mp (toNat_ofNat_of_lt w.toNat_lt)

theorem eq_ofNat_iff {w : Word} {n : Nat} (h : n < 2 ^ 256) : w = ofNat n ↔ w.toNat = n := by
  rw [← toNat_inj, toNat_ofNat_of_lt h]

@[simp] theorem toNat_zero : zero.toNat = 0 := rfl

@[simp] theorem toNat_one : one.toNat = 1 := rfl

theorem toNat_ofUInt64 (value : UInt64) : (ofUInt64 value).toNat = value.toNat := by
  rw [toNat_eq]
  simp [ofUInt64]

/-! ## Words that are small numbers -/

/-- A word fits into 64 bits exactly if there is a number of 64 bits with its value. -/
theorem toUInt64?_eq_some_iff {w : Word} {n : UInt64} :
    w.toUInt64? = some n ↔ w.toNat = n.toNat := by
  have h0 := w.limb0.toNat_lt
  have hn := n.toNat_lt
  simp only [toUInt64?, Option.ite_none_right_eq_some, Bool.and_eq_true, beq_iff_eq,
    Option.some_inj, ← UInt64.toNat_inj, UInt64.toNat_zero, toNat_eq]
  omega

theorem toUInt64?_eq_none_iff {w : Word} : w.toUInt64? = none ↔ 2 ^ 64 ≤ w.toNat := by
  rw [← Nat.not_lt, Option.eq_none_iff_forall_ne_some]
  constructor
  · intro h hlt
    refine h (.ofNat w.toNat) (toUInt64?_eq_some_iff.mpr ?_)
    rw [UInt64.toNat_ofNat', Nat.mod_eq_of_lt hlt]
  · intro h n hn
    exact h (toUInt64?_eq_some_iff.mp hn ▸ n.toNat_lt)

/-- A word fits into a byte exactly if there is a byte with its value. -/
theorem toUInt8?_eq_some_iff {w : Word} {b : UInt8} :
    w.toUInt8? = some b ↔ w.toNat = b.toNat := by
  have hb := b.toNat_lt
  simp only [toUInt8?, Option.bind_eq_some_iff, toUInt64?_eq_some_iff,
    Option.ite_none_right_eq_some, Option.some_inj]
  constructor
  · rintro ⟨n, hn, hle, rfl⟩
    have hle : n.toNat ≤ 255 := UInt64.le_iff_toNat_le.mp hle
    rw [hn, UInt64.toNat_toUInt8, Nat.mod_eq_of_lt (by omega)]
  · intro h
    refine ⟨b.toUInt64, ?_, ?_, b.toUInt8_toUInt64⟩
    · rw [h, UInt8.toNat_toUInt64]
    · rw [UInt64.le_iff_toNat_le, UInt8.toNat_toUInt64]
      exact Nat.le_of_lt_succ hb

theorem toUInt8?_eq_none_iff {w : Word} : w.toUInt8? = none ↔ 256 ≤ w.toNat := by
  rw [← Nat.not_lt, Option.eq_none_iff_forall_ne_some]
  constructor
  · intro h hlt
    refine h (.ofNat w.toNat) (toUInt8?_eq_some_iff.mpr ?_)
    rw [UInt8.toNat_ofNat', Nat.mod_eq_of_lt hlt]
  · intro h b hb
    exact h (toUInt8?_eq_some_iff.mp hb ▸ b.toNat_lt)

/-! ## Comparison -/

theorem isZero_iff {w : Word} : w.isZero = true ↔ w.toNat = 0 := by
  simp only [isZero, Bool.and_eq_true, beq_iff_eq, ← UInt64.toNat_inj, UInt64.toNat_zero,
    toNat_eq]
  omega

theorem cmp_eq_lt_iff {a b : Word} : a.cmp b = .lt ↔ a.toNat < b.toNat := by
  have hlt : ∀ x y : UInt64, compare x y = .lt ↔ x.toNat < y.toNat := fun x y =>
    compareOfLessAndEq_eq_lt.trans UInt64.lt_iff_toNat_lt
  have heq : ∀ x y : UInt64, compare x y = .eq ↔ x.toNat = y.toNat := fun x y =>
    (compareOfLessAndEq_eq_eq UInt64.le_refl UInt64.not_le).trans
      UInt64.toNat_inj.symm
  have ha0 := a.limb0.toNat_lt
  have ha1 := a.limb1.toNat_lt
  have ha2 := a.limb2.toNat_lt
  have hb0 := b.limb0.toNat_lt
  have hb1 := b.limb1.toNat_lt
  have hb2 := b.limb2.toNat_lt
  simp only [cmp, Ordering.then_eq_lt, hlt, heq, toNat_eq]
  omega

theorem blt_iff {a b : Word} : a.blt b = true ↔ a.toNat < b.toNat := by
  rw [blt, beq_iff_eq, cmp_eq_lt_iff]

theorem toNat_least (a b : Word) : (a.least b).toNat = min a.toNat b.toNat := by
  rw [least]
  split
  · next h => exact (Nat.min_eq_right (Nat.le_of_lt (blt_iff.mp h))).symm
  · next h =>
      rw [blt_iff] at h
      exact (Nat.min_eq_left (Nat.not_lt.mp h)).symm

theorem toNat_greatest (a b : Word) : (a.greatest b).toNat = Max.max a.toNat b.toNat := by
  rw [greatest]
  split
  · next h => exact (Nat.max_eq_left (Nat.le_of_lt (blt_iff.mp h))).symm
  · next h =>
      rw [blt_iff] at h
      exact (Nat.max_eq_right (Nat.not_lt.mp h)).symm

/-! ## Addition and subtraction -/

private theorem toNat_toUInt64 (flag : Bool) : flag.toUInt64.toNat = flag.toNat := by
  cases flag <;> rfl

/-- One limb of a sum and its carry hold the sum of the limbs. -/
theorem toNat_addLimb (a b : UInt64) (carry : Bool) :
    (addLimb a b carry).1.toNat + 2 ^ 64 * (addLimb a b carry).2.toNat
      = a.toNat + b.toNat + carry.toNat := by
  have ha := a.toNat_lt
  have hb := b.toNat_lt
  have hcarry : carry.toNat ≤ 1 := Bool.toNat_le carry
  have hpartial : (a + b).toNat = (a.toNat + b.toNat) % 2 ^ 64 := UInt64.toNat_add a b
  have htotal : (a + b + carry.toUInt64).toNat
      = ((a.toNat + b.toNat) % 2 ^ 64 + carry.toNat) % 2 ^ 64 := by
    rw [UInt64.toNat_add, hpartial, toNat_toUInt64]
  simp only [addLimb, UInt64.lt_iff_toNat_lt, hpartial, htotal]
  -- a carry leaves at most one of the two additions
  by_cases hover : 2 ^ 64 ≤ a.toNat + b.toNat + carry.toNat
  · have hflag : decide ((a.toNat + b.toNat) % 2 ^ 64 < a.toNat)
        || decide (((a.toNat + b.toNat) % 2 ^ 64 + carry.toNat) % 2 ^ 64
          < (a.toNat + b.toNat) % 2 ^ 64) := by
      simp only [Bool.or_eq_true, decide_eq_true_eq]
      omega
    rw [hflag, Bool.toNat_true]
    omega
  · have hflag : (decide ((a.toNat + b.toNat) % 2 ^ 64 < a.toNat)
        || decide (((a.toNat + b.toNat) % 2 ^ 64 + carry.toNat) % 2 ^ 64
          < (a.toNat + b.toNat) % 2 ^ 64)) = false := by
      simp only [Bool.or_eq_false_iff, decide_eq_false_iff_not]
      omega
    rw [hflag, Bool.toNat_false]
    omega

/-- The sum and the carry out of the highest limb hold the exact sum. -/
theorem toNat_addCarry (a b : Word) :
    (a.addCarry b).1.toNat + 2 ^ 256 * (a.addCarry b).2.toNat = a.toNat + b.toNat := by
  have h0 := toNat_addLimb a.limb0 b.limb0 false
  have h1 := toNat_addLimb a.limb1 b.limb1 (addLimb a.limb0 b.limb0 false).2
  have h2 := toNat_addLimb a.limb2 b.limb2
    (addLimb a.limb1 b.limb1 (addLimb a.limb0 b.limb0 false).2).2
  have h3 := toNat_addLimb a.limb3 b.limb3 (addLimb a.limb2 b.limb2
    (addLimb a.limb1 b.limb1 (addLimb a.limb0 b.limb0 false).2).2).2
  rw [Bool.toNat_false] at h0
  simp only [addCarry, toNat_eq]
  omega

/-- One limb of a difference and its borrow make up for the limb taken away. -/
theorem toNat_subLimb (a b : UInt64) (borrow : Bool) :
    (subLimb a b borrow).1.toNat + b.toNat + borrow.toNat
      = a.toNat + 2 ^ 64 * (subLimb a b borrow).2.toNat := by
  have ha := a.toNat_lt
  have hb := b.toNat_lt
  have hborrow : borrow.toNat ≤ 1 := Bool.toNat_le borrow
  have hpartial : (a - b).toNat = (2 ^ 64 - b.toNat + a.toNat) % 2 ^ 64 := UInt64.toNat_sub a b
  have htotal : (a - b - borrow.toUInt64).toNat
      = (2 ^ 64 - borrow.toNat + (2 ^ 64 - b.toNat + a.toNat) % 2 ^ 64) % 2 ^ 64 := by
    rw [UInt64.toNat_sub, hpartial, toNat_toUInt64]
  simp only [subLimb, UInt64.lt_iff_toNat_lt, hpartial, htotal, toNat_toUInt64]
  by_cases hunder : a.toNat < b.toNat + borrow.toNat
  · have hflag : decide (a.toNat < b.toNat)
        || decide ((2 ^ 64 - b.toNat + a.toNat) % 2 ^ 64 < borrow.toNat) := by
      simp only [Bool.or_eq_true, decide_eq_true_eq]
      omega
    rw [hflag, Bool.toNat_true]
    omega
  · have hflag : (decide (a.toNat < b.toNat)
        || decide ((2 ^ 64 - b.toNat + a.toNat) % 2 ^ 64 < borrow.toNat)) = false := by
      simp only [Bool.or_eq_false_iff, decide_eq_false_iff_not]
      omega
    rw [hflag, Bool.toNat_false]
    omega

/-- The difference and the borrow out of the highest limb make up for the word
taken away. -/
theorem toNat_subBorrow (a b : Word) :
    (a.subBorrow b).1.toNat + b.toNat = a.toNat + 2 ^ 256 * (a.subBorrow b).2.toNat := by
  have h0 := toNat_subLimb a.limb0 b.limb0 false
  have h1 := toNat_subLimb a.limb1 b.limb1 (subLimb a.limb0 b.limb0 false).2
  have h2 := toNat_subLimb a.limb2 b.limb2
    (subLimb a.limb1 b.limb1 (subLimb a.limb0 b.limb0 false).2).2
  have h3 := toNat_subLimb a.limb3 b.limb3 (subLimb a.limb2 b.limb2
    (subLimb a.limb1 b.limb1 (subLimb a.limb0 b.limb0 false).2).2).2
  rw [Bool.toNat_false] at h0
  simp only [subBorrow, toNat_eq]
  omega

/-! ## Multiplication -/

theorem mulCell_lt (digit a b : UInt64) {carry : Nat} (hcarry : carry < 2 ^ 64) :
    mulCell digit a b carry < 2 ^ 128 := by
  have hdigit := digit.toNat_lt
  have ha : a.toNat ≤ 2 ^ 64 - 1 := Nat.le_sub_one_of_lt a.toNat_lt
  have hb : b.toNat ≤ 2 ^ 64 - 1 := Nat.le_sub_one_of_lt b.toNat_lt
  have hproduct : a.toNat * b.toNat ≤ (2 ^ 64 - 1) * (2 ^ 64 - 1) := Nat.mul_le_mul ha hb
  rw [mulCell]
  omega

/-- A row of the product adds one limb's multiple of the other factor. -/
theorem toNat_mulRow (a : UInt64) (b row : Word) :
    (mulRow a b row).1.toNat + 2 ^ 256 * (mulRow a b row).2.toNat
      = row.toNat + a.toNat * b.toNat := by
  have hsize : UInt64.size = 2 ^ 64 := rfl
  have h0 := mulCell_lt row.limb0 a b.limb0 (by decide : 0 < 2 ^ 64)
  have h1 := mulCell_lt row.limb1 a b.limb1 (Nat.div_lt_of_lt_mul (n := 2 ^ 64) h0)
  have h2 := mulCell_lt row.limb2 a b.limb2 (Nat.div_lt_of_lt_mul (n := 2 ^ 64) h1)
  have h3 := mulCell_lt row.limb3 a b.limb3 (Nat.div_lt_of_lt_mul (n := 2 ^ 64) h2)
  have hproduct : a.toNat * b.toNat
      = a.toNat * b.limb0.toNat + 2 ^ 64 * (a.toNat * b.limb1.toNat)
        + 2 ^ 128 * (a.toNat * b.limb2.toNat) + 2 ^ 192 * (a.toNat * b.limb3.toNat) := by
    rw [toNat_eq]
    ring
  rw [hproduct]
  simp only [mulRow, hsize, toNat_eq, UInt64.toNat_ofNat']
  simp only [mulCell] at h0 h1 h2 h3 ⊢
  omega

/-- The low and the high word hold the exact product. -/
theorem toNat_mulFull (a b : Word) :
    (a.mulFull b).1.toNat + 2 ^ 256 * (a.mulFull b).2.toNat = a.toNat * b.toNat := by
  have hproduct : a.toNat * b.toNat
      = a.limb0.toNat * b.toNat + 2 ^ 64 * (a.limb1.toNat * b.toNat)
        + 2 ^ 128 * (a.limb2.toNat * b.toNat) + 2 ^ 192 * (a.limb3.toNat * b.toNat) := by
    rw [toNat_eq a]
    ring
  have h0 := toNat_mulRow a.limb0 b zero
  rw [hproduct]
  simp only [mulFull]
  generalize mulRow a.limb0 b zero = row0 at h0 ⊢
  have h1 := toNat_mulRow a.limb1 b ⟨row0.1.limb1, row0.1.limb2, row0.1.limb3, row0.2⟩
  generalize mulRow a.limb1 b _ = row1 at h1 ⊢
  have h2 := toNat_mulRow a.limb2 b ⟨row1.1.limb1, row1.1.limb2, row1.1.limb3, row1.2⟩
  generalize mulRow a.limb2 b _ = row2 at h2 ⊢
  have h3 := toNat_mulRow a.limb3 b ⟨row2.1.limb1, row2.1.limb2, row2.1.limb3, row2.2⟩
  generalize mulRow a.limb3 b _ = row3 at h3 ⊢
  rw [toNat_zero] at h0
  rw [toNat_eq] at h0 h1 h2 h3
  rw [toNat_eq ⟨_, _, _, _⟩] at h1 h2 h3
  rw [toNat_eq ⟨_, _, _, _⟩, toNat_eq ⟨_, _, _, _⟩]
  dsimp only at h1 h2 h3 ⊢
  omega

/-! ## Results that may not exist -/

theorem add?_eq (a b : Word) :
    a.add? b = if a.toNat + b.toNat < 2 ^ 256 then some (ofNat (a.toNat + b.toNat)) else none := by
  have hexact := toNat_addCarry a b
  rw [add?]
  generalize a.addCarry b = result at hexact ⊢
  obtain ⟨value, flag⟩ := result
  dsimp only at hexact ⊢
  have hvalue := value.toNat_lt
  cases flag with
  | false =>
      rw [Bool.toNat_false] at hexact
      rw [if_pos (by omega), ← hexact]
      simp
  | true =>
      rw [Bool.toNat_true] at hexact
      rw [if_neg (by omega)]

theorem sub?_eq (a b : Word) :
    a.sub? b = if b.toNat ≤ a.toNat then some (ofNat (a.toNat - b.toNat)) else none := by
  have hexact := toNat_subBorrow a b
  have ha := a.toNat_lt
  rw [sub?]
  generalize a.subBorrow b = result at hexact ⊢
  obtain ⟨value, flag⟩ := result
  dsimp only at hexact ⊢
  have hvalue := value.toNat_lt
  cases flag with
  | false =>
      rw [Bool.toNat_false] at hexact
      have hdifference : a.toNat - b.toNat = value.toNat := by omega
      rw [if_pos (by omega), hdifference, ofNat_toNat]
  | true =>
      rw [Bool.toNat_true] at hexact
      rw [if_neg (by omega)]

theorem mul?_eq (a b : Word) :
    a.mul? b = if a.toNat * b.toNat < 2 ^ 256 then some (ofNat (a.toNat * b.toNat)) else none := by
  have hexact := toNat_mulFull a b
  rw [mul?, mulOverflow]
  generalize a.mulFull b = result at hexact ⊢
  obtain ⟨low, high⟩ := result
  have hlow := low.toNat_lt
  dsimp only at hexact ⊢
  by_cases hhigh : high.isZero
  · have hzero := isZero_iff.mp hhigh
    rw [hzero, Nat.mul_zero, Nat.add_zero] at hexact
    rw [if_pos (by omega), ← hexact, ofNat_toNat]
    simp [hhigh]
  · have hnonzero : high.toNat ≠ 0 := mt isZero_iff.mpr hhigh
    rw [if_neg (by omega)]
    simp [hhigh]

/-- The difference that wraps around. -/
theorem toNat_subWrap (a b : Word) :
    (a.subWrap b).toNat = (2 ^ 256 + a.toNat - b.toNat) % 2 ^ 256 := by
  have hexact := toNat_subBorrow a b
  have hvalue := (a.subBorrow b).1.toNat_lt
  have ha := a.toNat_lt
  have hb := b.toNat_lt
  rw [subWrap]
  cases hflag : (a.subBorrow b).2 with
  | false =>
      rw [hflag, Bool.toNat_false] at hexact
      omega
  | true =>
      rw [hflag, Bool.toNat_true] at hexact
      omega

end WordMachine.Word
