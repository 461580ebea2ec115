import Mathlib.Order.Bounds.Defs
import WordMachine.Proofs.Word.Bits
import WordMachine.Proofs.Word.Bytes

/-!
# Digits of limbs are digits of numbers

What shifts, masks and comparisons do limb by limb, they do to the number that the limbs denote.
A limb is a digit of that number in base `2 ^ 64`, so a single binary digit, the count of binary
digits and the bytes of a word are those of the number, too.

## Main results

* `Word.toNat_limb` — a limb as a digit of the number
* `Word.cmp_eq_compare` — the order of words is that of numbers
* `Word.isLeast_bits` — the count of binary digits is the least possible one
* `Word.bit_eq_decide`, `Word.bit_complement` — binary digits
* `Word.limb_digits_are_exact` — all operations on digits
-/

namespace WordMachine.Word

/-! ## Order -/

private theorem cmp_eq_eq_iff {a b : Word} : a.cmp b = .eq ↔ a = b := by
  have heq : ∀ x y : UInt64, compare x y = .eq ↔ x = y := fun _ _ =>
    compareOfLessAndEq_eq_eq UInt64.le_refl UInt64.not_le
  simp only [cmp, Ordering.then_eq_eq, heq, Word.ext_iff]
  constructor
  · rintro ⟨h3, h2, h1, h0⟩
    exact ⟨h0, h1, h2, h3⟩
  · rintro ⟨h0, h1, h2, h3⟩
    exact ⟨h3, h2, h1, h0⟩

/-- Words are ordered as the numbers that they denote. -/
theorem cmp_eq_compare (a b : Word) : a.cmp b = compare a.toNat b.toNat := by
  rcases Nat.lt_trichotomy a.toNat b.toNat with hlt | heq | hgt
  · rw [cmp_eq_lt_iff.mpr hlt, Nat.compare_eq_lt.mpr hlt]
  · rw [cmp_eq_eq_iff.mpr (toNat_inj.mp heq), Nat.compare_eq_eq.mpr heq]
  · have hlt : a.cmp b ≠ .lt := mt cmp_eq_lt_iff.mp (Nat.lt_asymm hgt)
    have heq : a.cmp b ≠ .eq := mt (toNat_inj.mpr ∘ cmp_eq_eq_iff.mp) (Nat.ne_of_gt hgt)
    rw [Nat.compare_eq_gt.mpr hgt]
    cases hcmp : a.cmp b with
    | lt => exact absurd hcmp hlt
    | eq => exact absurd hcmp heq
    | gt => rfl

/-! ## Shifts as wide as a word -/

private theorem shiftLeft_of_le (w : Word) {n : Nat} (h : 256 ≤ n) : w.shiftLeft n = zero :=
  if_neg (Nat.not_lt.mpr h)

private theorem shiftRight_of_le (w : Word) {n : Nat} (h : 256 ≤ n) : w.shiftRight n = zero :=
  if_neg (Nat.not_lt.mpr h)

/-! ## The number of binary digits -/

/-- A limb is a digit in base `2 ^ 64`. -/
theorem toNat_limb (w : Word) (i : Nat) :
    (w.limb i).toNat = w.toNat / 2 ^ (64 * i) % 2 ^ 64 := by
  apply Nat.eq_of_testBit_eq
  intro j
  rw [Nat.testBit_mod_two_pow, Nat.testBit_div_two_pow]
  by_cases hj : j < 64
  · rw [testBit_limb w i hj, Nat.add_comm]
    simp [hj]
  · rw [testBit_limb_of_le _ (Nat.not_lt.mp hj)]
    simp [hj]

/-- The digits that are counted are those of the highest limb that is not zero, and of all
limbs below it. -/
theorem exists_limb_of_bits_ne_zero {w : Word} (h : w.bits ≠ 0) :
    ∃ i, w.limb i ≠ 0 ∧ w.bits = 64 * i + ((w.limb i).log2.toNat + 1) := by
  rw [bits] at h ⊢
  split at h
  · next h3 => exact ⟨3, h3, if_pos h3⟩
  next h3 =>
  split at h
  · next h2 => exact ⟨2, h2, (if_neg h3).trans (if_pos h2)⟩
  next h2 =>
  split at h
  · next h1 => exact ⟨1, h1, (if_neg h3).trans <| (if_neg h2).trans (if_pos h1)⟩
  next h1 =>
  split at h
  · next h0 =>
      refine ⟨0, h0, (if_neg h3).trans <| (if_neg h2).trans <| (if_neg h1).trans ?_⟩
      rw [if_pos h0, Nat.mul_zero, Nat.zero_add]
      rfl
  · exact absurd rfl h

/-- A word has reached every power of two below the count of its digits. -/
theorem two_pow_le_of_lt_bits {w : Word} {k : Nat} (h : k < w.bits) : 2 ^ k ≤ w.toNat := by
  obtain ⟨i, hlimb, hbits⟩ := exists_limb_of_bits_ne_zero (Nat.ne_of_gt (Nat.zero_lt_of_lt h))
  have hne : (w.limb i).toNat ≠ 0 := fun hzero => hlimb (UInt64.toNat_inj.mp hzero)
  have hlog : 2 ^ (w.limb i).log2.toNat ≤ (w.limb i).toNat := Nat.log2_self_le hne
  have hdigit : (w.limb i).toNat ≤ w.toNat / 2 ^ (64 * i) := by
    rw [toNat_limb]
    exact Nat.mod_le _ _
  calc 2 ^ k ≤ 2 ^ ((w.limb i).log2.toNat + 64 * i) := Nat.pow_le_pow_right (by decide) (by omega)
    _ = 2 ^ (w.limb i).log2.toNat * 2 ^ (64 * i) := Nat.pow_add 2 _ _
    _ ≤ w.toNat / 2 ^ (64 * i) * 2 ^ (64 * i) := Nat.mul_le_mul_right _ (hlog.trans hdigit)
    _ ≤ w.toNat := Nat.div_mul_le_self _ _

/-- The count of digits is the least exponent of a power of two above the word. -/
theorem isLeast_bits (w : Word) : IsLeast {k | w.toNat < 2 ^ k} w.bits := by
  refine ⟨toNat_lt_two_pow_bits w, fun k hk => ?_⟩
  by_contra hlt
  have hle : 2 ^ k ≤ w.toNat := two_pow_le_of_lt_bits (Nat.not_le.mp hlt)
  exact absurd hk (Nat.not_lt.mpr hle)

/-! ## Single binary digits -/

theorem bit_eq_decide (w : Word) (n : Nat) : w.bit n = decide (w.toNat / 2 ^ n % 2 = 1) := by
  rw [bit_eq_testBit, Nat.testBit_eq_decide_div_mod_eq]

private theorem bit_of_le (w : Word) {n : Nat} (h : 256 ≤ n) : w.bit n = false := by
  rw [bit_eq_testBit, testBit_of_le w h]

private theorem bit_and (a b : Word) (n : Nat) : (a.and b).bit n = (a.bit n && b.bit n) := by
  rw [bit_eq_testBit, bit_eq_testBit, bit_eq_testBit, toNat_and, Nat.testBit_and]

private theorem bit_or (a b : Word) (n : Nat) : (a.or b).bit n = (a.bit n || b.bit n) := by
  rw [bit_eq_testBit, bit_eq_testBit, bit_eq_testBit, toNat_or, Nat.testBit_or]

private theorem toNat_complement (w : Word) : w.complement.toNat = 2 ^ 256 - (w.toNat + 1) := by
  have h0 := w.limb0.toNat_lt
  have h1 := w.limb1.toNat_lt
  have h2 := w.limb2.toNat_lt
  have h3 := w.limb3.toNat_lt
  simp only [toNat_eq, complement, UInt64.toNat_not, UInt64.size]
  omega

theorem bit_complement (w : Word) (n : Nat) :
    w.complement.bit n = (decide (n < 256) && !w.bit n) := by
  rw [bit_eq_testBit, bit_eq_testBit, toNat_complement, Nat.testBit_two_pow_sub_succ w.toNat_lt]

/-! ## All operations on digits -/

/-- Operations on the digits of limbs are operations on the digits of numbers.  Shifts multiply
and divide by powers of two, and leave nothing once they are as wide as a word; a mask is the
largest number of its width; words are compared as numbers.  The count of binary digits is the
least one that suffices, a binary digit is that of the number, and the operations of logic act
digit by digit.  Words and their 32 bytes determine each other, and the bytes are the digits in
base 256, the most significant one first. -/
theorem limb_digits_are_exact (a b : Word) (n : Nat) {bytes : List UInt8}
    (hbytes : bytes.length = 32) :
    ((a.shiftLeft n).toNat = a.toNat * 2 ^ n % 2 ^ 256 ∧
      (a.shiftRight n).toNat = a.toNat / 2 ^ n ∧
      (256 ≤ n → a.shiftLeft n = zero ∧ a.shiftRight n = zero)) ∧
    (lowMask n).toNat = 2 ^ min n 256 - 1 ∧
    a.cmp b = compare a.toNat b.toNat ∧
    IsLeast {k | a.toNat < 2 ^ k} a.bits ∧
    (a.bit n = decide (a.toNat / 2 ^ n % 2 = 1) ∧ (256 ≤ n → a.bit n = false)) ∧
    ((a.and b).bit n = (a.bit n && b.bit n) ∧
      (a.or b).bit n = (a.bit n || b.bit n) ∧
      a.complement.bit n = (decide (n < 256) && !a.bit n)) ∧
    (ofBytes a.toBytes = a ∧ (ofBytes bytes).toBytes = bytes) ∧
    a.toBytes.length = 32 ∧
    (∀ i < 32, a.toBytes[i]? = some (.ofNat (a.toNat / 256 ^ (31 - i) % 256))) ∧
    (ofBytes bytes).toNat = bytesValue bytes :=
  ⟨⟨toNat_shiftLeft a n, toNat_shiftRight a n,
      fun hn => ⟨shiftLeft_of_le a hn, shiftRight_of_le a hn⟩⟩,
    toNat_lowMask n, cmp_eq_compare a b, isLeast_bits a,
    ⟨bit_eq_decide a n, bit_of_le a⟩,
    ⟨bit_and a b n, bit_or a b n, bit_complement a n⟩,
    ⟨ofBytes_toBytes a, toBytes_ofBytes hbytes⟩,
    length_toBytes a, fun _ hi => getElem?_toBytes a hi, toNat_ofBytes hbytes⟩

/-- Shifts by one place less than a limb, of a word whose digits then cross from one limb into the
next; and 32 bytes of which only the first and the last are not zero. -/
theorem limb_digits_are_exact_across_limbs :
    let a : Word := ⟨3, 0, 0, 0x8000000000000001⟩
    let bytes : List UInt8 := 0x80 :: List.replicate 30 0 ++ [7]
    bytes.length = 32 ∧ (a.shiftLeft 63).toNat = 2 ^ 255 + 3 * 2 ^ 63 ∧
      (a.shiftRight 63).toNat = 2 ^ 192 + 2 ^ 129 ∧ a.toBytes[7]? = some 1 ∧
      (ofBytes bytes).toNat = 2 ^ 255 + 7 := by
  intro a bytes
  have hbytes : bytes.length = 32 := by decide
  obtain ⟨⟨hleft, hright, -⟩, -, -, -, -, -, -, -, hdigits, hvalue⟩ :=
    limb_digits_are_exact a a 63 hbytes
  refine ⟨hbytes, ?_, ?_, ?_, ?_⟩
  · rw [hleft]
    decide +kernel
  · rw [hright]
    decide +kernel
  · rw [hdigits 7 (by decide)]
    decide +kernel
  · rw [hvalue]
    decide +kernel

end WordMachine.Word
