import WordMachine.Proofs.Word.Value

/-!
# The binary digits of words

A binary digit of a word is a digit of one of its limbs.  Everything the limbs
do digit by digit is therefore read off at a single digit, and two words are the
same once all digits are.  Shifts come out as multiplication and division by
powers of two.

## Main results

* `Word.testBit_toNat` — the digits of a word and those of its limbs
* `Word.toNat_shiftRight`, `Word.toNat_shiftLeft` — shifts
* `Word.toNat_and`, `Word.toNat_or`, `Word.toNat_lowMask` — masks
* `Word.bit_eq_testBit`, `Word.toNat_setBit`, `Word.toNat_lt_two_pow_bits` — single digits
-/

namespace WordMachine.Word

/-! ## Digits of words and limbs -/

private theorem limb_add_four (w : Word) (n : Nat) : w.limb (n + 4) = 0 := rfl

/-- Digit `n` of a word is a digit of limb `n / 64`. -/
theorem testBit_toNat (w : Word) (n : Nat) :
    w.toNat.testBit n = (w.limb (n / 64)).toNat.testBit (n % 64) := by
  have hnested : w.toNat = 2 ^ 64 * (2 ^ 64 * (2 ^ 64 * w.limb3.toNat + w.limb2.toNat)
      + w.limb1.toNat) + w.limb0.toNat := by
    rw [toNat_eq]
    ring
  rw [hnested, Nat.testBit_two_pow_mul_add _ w.limb0.toNat_lt,
    Nat.testBit_two_pow_mul_add _ w.limb1.toNat_lt,
    Nat.testBit_two_pow_mul_add _ w.limb2.toNat_lt]
  by_cases h0 : n < 64
  · have hlimb : n / 64 = 0 := by omega
    rw [if_pos h0, hlimb, Nat.mod_eq_of_lt h0, limb]
  · rw [if_neg h0]
    by_cases h1 : n - 64 < 64
    · have hlimb : n / 64 = 1 := by omega
      have hdigit : n % 64 = n - 64 := by omega
      rw [if_pos h1, hlimb, hdigit, limb]
    · rw [if_neg h1]
      by_cases h2 : n - 64 - 64 < 64
      · have hlimb : n / 64 = 2 := by omega
        have hdigit : n % 64 = n - 64 - 64 := by omega
        rw [if_pos h2, hlimb, hdigit, limb]
      · rw [if_neg h2]
        by_cases h3 : n < 256
        · have hlimb : n / 64 = 3 := by omega
          have hdigit : n % 64 = n - 64 - 64 - 64 := by omega
          rw [hlimb, hdigit, limb]
        · have hlimb : w.limb (n / 64) = 0 := by
            obtain ⟨k, hk⟩ : ∃ k, n / 64 = k + 4 := ⟨n / 64 - 4, by omega⟩
            rw [hk, limb_add_four]
          have hbound : w.limb3.toNat < 2 ^ (n - 64 - 64 - 64) :=
            Nat.lt_of_lt_of_le w.limb3.toNat_lt (Nat.pow_le_pow_right (by omega) (by omega))
          rw [hlimb, Nat.testBit_lt_two_pow hbound, UInt64.toNat_zero, Nat.zero_testBit]

theorem testBit_limb (w : Word) (i : Nat) {j : Nat} (hj : j < 64) :
    (w.limb i).toNat.testBit j = w.toNat.testBit (64 * i + j) := by
  have hlimb : (64 * i + j) / 64 = i := by omega
  have hdigit : (64 * i + j) % 64 = j := by omega
  rw [testBit_toNat, hlimb, hdigit]

/-- A word has no digits past the last. -/
theorem testBit_of_le (w : Word) {n : Nat} (h : 256 ≤ n) : w.toNat.testBit n = false :=
  Nat.testBit_lt_two_pow (Nat.lt_of_lt_of_le w.toNat_lt (Nat.pow_le_pow_right (by omega) h))

private theorem limb_ofLimbs (f : Nat → UInt64) {i : Nat} (hi : i < 4) :
    (ofLimbs f).limb i = f i := by
  match i, hi with
  | 0, _ => rfl
  | 1, _ => rfl
  | 2, _ => rfl
  | 3, _ => rfl

private theorem testBit_shiftLeft_limb (x : UInt64) {k : Nat} (hk : k < 64) (j : Nat) :
    (x <<< UInt64.ofNat k).toNat.testBit j
      = (decide (j < 64) && (decide (k ≤ j) && x.toNat.testBit (j - k))) := by
  have hdistance : (UInt64.ofNat k).toNat % 64 = k := by
    rw [UInt64.toNat_ofNat']
    omega
  rw [UInt64.toNat_shiftLeft, hdistance, Nat.testBit_mod_two_pow, Nat.testBit_shiftLeft]

private theorem testBit_shiftRight_limb (x : UInt64) {k : Nat} (hk : k < 64) (j : Nat) :
    (x >>> UInt64.ofNat k).toNat.testBit j = x.toNat.testBit (k + j) := by
  have hdistance : (UInt64.ofNat k).toNat % 64 = k := by
    rw [UInt64.toNat_ofNat']
    omega
  rw [UInt64.toNat_shiftRight, hdistance, Nat.testBit_shiftRight]

/-- The distance that is left within a limb, in the other direction. -/
theorem sub_ofNat_within {k : Nat} (hk : k < 64) :
    (64 : UInt64) - UInt64.ofNat k = UInt64.ofNat (64 - k) := by
  apply UInt64.toNat_inj.mp
  rw [UInt64.toNat_sub, UInt64.toNat_ofNat', UInt64.toNat_ofNat']
  have hwhole : (64 : UInt64).toNat = 64 := rfl
  rw [hwhole]
  omega

private theorem ofNat_within_pos {k : Nat} (hk : k < 64) : UInt64.ofNat k > 0 ↔ 0 < k := by
  change 0 < UInt64.ofNat k ↔ 0 < k
  rw [UInt64.lt_iff_toNat_lt, UInt64.toNat_ofNat', UInt64.toNat_zero]
  omega

/-- A limb has no digits past its last. -/
theorem testBit_limb_of_le (x : UInt64) {j : Nat} (h : 64 ≤ j) : x.toNat.testBit j = false :=
  Nat.testBit_lt_two_pow (Nat.lt_of_lt_of_le x.toNat_lt (Nat.pow_le_pow_right (by omega) h))

/-! ## Shifts -/

/-- Moving down by `n` places puts digit `n + k` at place `k`. -/
theorem testBit_shiftRight (w : Word) (n k : Nat) :
    (w.shiftRight n).toNat.testBit k = w.toNat.testBit (n + k) := by
  by_cases hk : 256 ≤ k
  · rw [testBit_of_le _ hk, testBit_of_le _ (by omega)]
  by_cases hn : n < 256
  · have hwithin : n % 64 < 64 := Nat.mod_lt _ (by decide)
    have hdigit : k % 64 < 64 := Nat.mod_lt _ (by decide)
    rw [testBit_toNat (w.shiftRight n), shiftRight, if_pos hn, limb_ofLimbs _ (by omega)]
    simp only [Bool.and_eq_true, decide_eq_true_eq, ofNat_within_pos hwithin,
      sub_ofNat_within hwithin]
    -- the digit stays in its limb, or comes from the limb above
    by_cases hsame : n % 64 + k % 64 < 64
    · have hplace : 64 * (k / 64 + n / 64) + (n % 64 + k % 64) = n + k := by omega
      have hhigh : (w.limb (k / 64 + n / 64) >>> UInt64.ofNat (n % 64)).toNat.testBit (k % 64)
          = w.toNat.testBit (n + k) := by
        rw [testBit_shiftRight_limb _ hwithin, testBit_limb _ _ hsame, hplace]
      split
      · next hcond =>
          rw [UInt64.toNat_or, Nat.testBit_or, hhigh, testBit_shiftLeft_limb _ (by omega)]
          have hlow : ¬ 64 - n % 64 ≤ k % 64 := by omega
          simp [hlow]
      · exact hhigh
    · have hhigh : (w.limb (k / 64 + n / 64) >>> UInt64.ofNat (n % 64)).toNat.testBit (k % 64)
          = false := by
        rw [testBit_shiftRight_limb _ hwithin, testBit_limb_of_le _ (by omega)]
      split
      · next hcond =>
          have hplace : 64 * (k / 64 + n / 64 + 1) + (k % 64 - (64 - n % 64)) = n + k := by omega
          rw [UInt64.toNat_or, Nat.testBit_or, hhigh, testBit_shiftLeft_limb _ (by omega),
            testBit_limb _ _ (by omega), hplace]
          have hlow : 64 - n % 64 ≤ k % 64 := by omega
          simp [hlow, hdigit]
      · rw [hhigh, testBit_of_le _ (by omega)]
  · rw [shiftRight, if_neg hn, toNat_zero, Nat.zero_testBit, testBit_of_le _ (by omega)]

theorem toNat_shiftRight (w : Word) (n : Nat) : (w.shiftRight n).toNat = w.toNat / 2 ^ n := by
  apply Nat.eq_of_testBit_eq
  intro k
  rw [testBit_shiftRight, ← Nat.shiftRight_eq_div_pow, Nat.testBit_shiftRight]

/-- Moving up by `n` places puts digit `k` at place `n + k`, if there is one. -/
theorem testBit_shiftLeft (w : Word) (n k : Nat) :
    (w.shiftLeft n).toNat.testBit k
      = (decide (k < 256) && (decide (n ≤ k) && w.toNat.testBit (k - n))) := by
  by_cases hk : 256 ≤ k
  · rw [testBit_of_le _ hk]
    simp [Nat.not_lt.mpr hk]
  have hk' : k < 256 := Nat.not_le.mp hk
  by_cases hn : n < 256
  · have hwithin : n % 64 < 64 := Nat.mod_lt _ (by decide)
    have hdigit : k % 64 < 64 := Nat.mod_lt _ (by decide)
    rw [testBit_toNat (w.shiftLeft n), shiftLeft, if_pos hn, limb_ofLimbs _ (by omega)]
    simp only [Bool.and_eq_true, decide_eq_true_eq, ofNat_within_pos hwithin,
      sub_ofNat_within hwithin, gt_iff_lt]
    by_cases hbelow : k / 64 < n / 64
    · have hpast : ¬ n ≤ k := by omega
      rw [if_pos hbelow, UInt64.toNat_zero, Nat.zero_testBit]
      simp [hpast]
    · rw [if_neg hbelow]
      -- the digit stays in its limb, or comes from the limb below
      by_cases hsame : n % 64 ≤ k % 64
      · have hle : n ≤ k := by omega
        have hplace : 64 * (k / 64 - n / 64) + (k % 64 - n % 64) = k - n := by omega
        have hlow : (w.limb (k / 64 - n / 64) <<< UInt64.ofNat (n % 64)).toNat.testBit (k % 64)
            = w.toNat.testBit (k - n) := by
          rw [testBit_shiftLeft_limb _ hwithin, testBit_limb _ _ (by omega), hplace]
          simp [hsame, hdigit]
        split
        · next hcond =>
            rw [UInt64.toNat_or, Nat.testBit_or, hlow, testBit_shiftRight_limb _ (by omega),
              testBit_limb_of_le _ (by omega)]
            simp [hk', hle]
        · rw [hlow]
          simp [hk', hle]
      · have hlow : (w.limb (k / 64 - n / 64) <<< UInt64.ofNat (n % 64)).toNat.testBit (k % 64)
            = false := by
          rw [testBit_shiftLeft_limb _ hwithin]
          simp [hsame]
        split
        · next hcond =>
            have hle : n ≤ k := by omega
            have hplace : 64 * (k / 64 - n / 64 - 1) + (64 - n % 64 + k % 64) = k - n := by omega
            rw [UInt64.toNat_or, Nat.testBit_or, hlow, testBit_shiftRight_limb _ (by omega),
              testBit_limb _ _ (by omega), hplace]
            simp [hk', hle]
        · next hcond =>
            have hpast : ¬ n ≤ k := by omega
            rw [hlow]
            simp [hpast]
  · have hpast : ¬ n ≤ k := by omega
    rw [shiftLeft, if_neg hn, toNat_zero, Nat.zero_testBit]
    simp [hpast]

theorem toNat_shiftLeft (w : Word) (n : Nat) :
    (w.shiftLeft n).toNat = w.toNat * 2 ^ n % 2 ^ 256 := by
  apply Nat.eq_of_testBit_eq
  intro k
  rw [testBit_shiftLeft, Nat.testBit_mod_two_pow, ← Nat.shiftLeft_eq, Nat.testBit_shiftLeft]

/-! ## Masks -/

private theorem limb_and (a b : Word) (i : Nat) : (a.and b).limb i = a.limb i &&& b.limb i := by
  match i with
  | 0 => rfl
  | 1 => rfl
  | 2 => rfl
  | 3 => rfl
  | n + 4 => rw [limb_add_four, limb_add_four, limb_add_four, UInt64.and_zero]

private theorem limb_or (a b : Word) (i : Nat) : (a.or b).limb i = a.limb i ||| b.limb i := by
  match i with
  | 0 => rfl
  | 1 => rfl
  | 2 => rfl
  | 3 => rfl
  | n + 4 => rw [limb_add_four, limb_add_four, limb_add_four, UInt64.or_zero]

theorem toNat_and (a b : Word) : (a.and b).toNat = a.toNat &&& b.toNat := by
  apply Nat.eq_of_testBit_eq
  intro k
  rw [Nat.testBit_and, testBit_toNat, testBit_toNat a, testBit_toNat b, limb_and,
    UInt64.toNat_and, Nat.testBit_and]

theorem toNat_or (a b : Word) : (a.or b).toNat = a.toNat ||| b.toNat := by
  apply Nat.eq_of_testBit_eq
  intro k
  rw [Nat.testBit_or, testBit_toNat, testBit_toNat a, testBit_toNat b, limb_or,
    UInt64.toNat_or, Nat.testBit_or]

/-- No mask is wider than a word. -/
theorem toNat_lowMask (n : Nat) : (lowMask n).toNat = 2 ^ min n 256 - 1 := by
  rw [lowMask]
  split
  · next hwide =>
      rw [Nat.min_eq_right hwide]
      rfl
  · next hnarrow =>
      have hn := Nat.not_le.mp hnarrow
      have hpow : 2 ^ n < 2 ^ 256 := Nat.pow_lt_pow_right (by decide) hn
      have hpos : 0 < 2 ^ n := Nat.two_pow_pos n
      rw [Nat.min_eq_left (Nat.le_of_lt hn), toNat_subWrap, toNat_shiftLeft, toNat_one,
        Nat.one_mul, Nat.mod_eq_of_lt hpow]
      omega

/-- Masking keeps the low digits. -/
theorem toNat_and_lowMask (w : Word) (n : Nat) :
    (w.and (lowMask n)).toNat = w.toNat % 2 ^ n := by
  rw [toNat_and, toNat_lowMask, Nat.and_two_pow_sub_one_eq_mod]
  by_cases hn : n ≤ 256
  · rw [Nat.min_eq_left hn]
  · have hwide : 2 ^ 256 ≤ 2 ^ n := Nat.pow_le_pow_right (by decide) (Nat.le_of_not_le hn)
    rw [Nat.min_eq_right (Nat.le_of_not_le hn), Nat.mod_eq_of_lt w.toNat_lt,
      Nat.mod_eq_of_lt (Nat.lt_of_lt_of_le w.toNat_lt hwide)]

theorem toNat_lowUInt32 (w : Word) : w.lowUInt32.toNat = w.toNat % 2 ^ 32 := by
  rw [lowUInt32, UInt64.toNat_toUInt32, toNat_eq]
  omega

/-! ## Single digits -/

theorem bit_eq_testBit (w : Word) (n : Nat) : w.bit n = w.toNat.testBit n := by
  by_cases hn : n < 256
  · have hwithin : n % 64 < 64 := Nat.mod_lt _ (by decide)
    have hshifted := testBit_shiftRight_limb (w.limb (n / 64)) hwithin 0
    rw [Nat.testBit_zero, Nat.add_zero, ← testBit_toNat] at hshifted
    rw [bit, ← hshifted]
    simp only [hn, decide_true, Bool.true_and]
    rw [Bool.eq_iff_iff, beq_iff_eq, decide_eq_true_iff, ← UInt64.toNat_inj, UInt64.toNat_and]
    rw [UInt64.toNat_one, Nat.and_one_is_mod]
  · rw [bit, testBit_of_le _ (Nat.not_lt.mp hn)]
    simp [hn]

private theorem testBit_setBit (w : Word) {n : Nat} (hn : n < 256) (k : Nat) :
    (w.setBit n).toNat.testBit k = (w.toNat.testBit k || decide (k = n)) := by
  by_cases hk : 256 ≤ k
  · have hne : ¬ k = n := by omega
    rw [testBit_of_le _ hk, testBit_of_le _ hk]
    simp [hne]
  have hwithin : n % 64 < 64 := Nat.mod_lt _ (by decide)
  have hdigit : k % 64 < 64 := Nat.mod_lt _ (by decide)
  rw [testBit_toNat (w.setBit n), setBit, limb_ofLimbs _ (by omega), testBit_toNat w]
  split
  · next hlimb =>
      have hone : ((1 : UInt64) <<< UInt64.ofNat (n % 64)).toNat.testBit (k % 64)
          = decide (k = n) := by
        rw [testBit_shiftLeft_limb _ hwithin, UInt64.toNat_one, Bool.eq_iff_iff]
        simp only [Bool.and_eq_true, decide_eq_true_eq, Nat.testBit_one_eq_true_iff_self_eq_zero]
        omega
      rw [UInt64.toNat_or, Nat.testBit_or, hone]
  · next hlimb =>
      have hne : ¬ k = n := by
        rintro rfl
        exact hlimb rfl
      simp [hne]

/-- Setting a digit below all digits that are set adds its power of two. -/
theorem toNat_setBit (w : Word) {n : Nat} (hn : n < 256) (h : 2 ^ (n + 1) ∣ w.toNat) :
    (w.setBit n).toNat = w.toNat + 2 ^ n := by
  have hset : (w.setBit n).toNat = w.toNat ||| 2 ^ n := by
    apply Nat.eq_of_testBit_eq
    intro k
    rw [testBit_setBit w hn, Nat.testBit_or, Nat.testBit_two_pow]
    simp [eq_comm]
  obtain ⟨high, hhigh⟩ := h
  have hbelow : 2 ^ n < 2 ^ (n + 1) := Nat.pow_lt_pow_right (by decide) (Nat.lt_succ_self n)
  rw [hset, hhigh, Nat.two_pow_add_eq_or_of_lt hbelow]

/-- A limb is below the power of two that its digits count. -/
theorem toNat_lt_two_pow_log2 (x : UInt64) : x.toNat < 2 ^ (x.log2.toNat + 1) := by
  have hlog : x.log2.toNat = x.toNat.log2 := rfl
  rw [hlog]
  exact Nat.lt_log2_self

/-- A word is below the power of two that its digits count. -/
theorem toNat_lt_two_pow_bits (w : Word) : w.toNat < 2 ^ w.bits := by
  have h0 := w.limb0.toNat_lt
  have h1 := w.limb1.toNat_lt
  have h2 := w.limb2.toNat_lt
  rw [toNat_eq, bits]
  by_cases hz3 : w.limb3 = 0
  · have ht3 : w.limb3.toNat = 0 := by rw [hz3, UInt64.toNat_zero]
    rw [if_neg (not_not_intro hz3)]
    by_cases hz2 : w.limb2 = 0
    · have ht2 : w.limb2.toNat = 0 := by rw [hz2, UInt64.toNat_zero]
      rw [if_neg (not_not_intro hz2)]
      by_cases hz1 : w.limb1 = 0
      · have ht1 : w.limb1.toNat = 0 := by rw [hz1, UInt64.toNat_zero]
        rw [if_neg (not_not_intro hz1)]
        by_cases hz0 : w.limb0 = 0
        · have ht0 : w.limb0.toNat = 0 := by rw [hz0, UInt64.toNat_zero]
          rw [if_neg (not_not_intro hz0)]
          omega
        · have hbound := toNat_lt_two_pow_log2 w.limb0
          rw [if_pos hz0]
          omega
      · have hbound := toNat_lt_two_pow_log2 w.limb1
        rw [if_pos hz1, Nat.pow_add]
        omega
    · have hbound := toNat_lt_two_pow_log2 w.limb2
      rw [if_pos hz2, Nat.pow_add]
      omega
  · have hbound := toNat_lt_two_pow_log2 w.limb3
    rw [if_pos hz3, Nat.pow_add]
    omega

theorem bits_le (w : Word) : w.bits ≤ 256 := by
  have hlog : ∀ x : UInt64, x.log2.toNat < 64 := by
    intro x
    have hlog : x.log2.toNat = x.toNat.log2 := rfl
    rw [hlog]
    by_cases hx : x.toNat = 0
    · rw [hx]
      decide
    · exact (Nat.log2_lt hx).mpr x.toNat_lt
  have h0 := hlog w.limb0
  have h1 := hlog w.limb1
  have h2 := hlog w.limb2
  have h3 := hlog w.limb3
  rw [bits]
  split
  · omega
  · split
    · omega
    · split
      · omega
      · split <;> omega

end WordMachine.Word
