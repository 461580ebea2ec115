import WordMachine.Proofs.Word.Bits

/-!
# Division of words

Long division in base two brings down the digits of the dividend one by one.
Its state is lawful as long as the part of the quotient found so far and the
remainder account for the digits already brought down.  Each digit keeps the state
lawful, also where doubling the remainder loses its highest digit, so once all
digits are down the state holds the quotient and the remainder.

## Main definitions

* `Word.Dividing` — lawful states of a long division

## Main results

* `Word.Dividing.divideDigits` — the digits still to come keep a state lawful
* `Word.divMod?_eq`, `Word.div?_eq`, `Word.mod?_eq` — the quotient and the remainder, unless the
  divisor is zero
* `Word.division_is_euclidean` — the three ways to divide agree
-/

namespace WordMachine.Word

/-- With `n` digits of `a` still to be brought down, the quotient is complete down
to digit `n` and the remainder is what is left over. -/
structure Dividing (a b : Word) (n : Nat) (state : Word × Word) : Prop where
  aligned : 2 ^ n ∣ state.1.toNat
  below : state.2.toNat < b.toNat
  equation : a.toNat / 2 ^ n = state.1.toNat / 2 ^ n * b.toNat + state.2.toNat

/-- Setting the lowest digit of an even limb adds one. -/
theorem toNat_or_one {x : UInt64} (h : x.toNat % 2 = 0) : (x ||| 1).toNat = x.toNat + 1 := by
  obtain ⟨half, hhalf⟩ := Nat.dvd_of_mod_eq_zero h
  have hor := Nat.two_pow_add_eq_or_of_lt (by decide : 1 < 2 ^ 1) half
  rw [Nat.pow_one] at hor
  rw [UInt64.toNat_or, UInt64.toNat_one, hhalf, hor]

/-- The remainder with one more digit brought down, as far as it fits. -/
theorem toNat_brought (a remainder : Word) (n : Nat) :
    (if a.bit n then
        { remainder.shiftLeft 1 with limb0 := (remainder.shiftLeft 1).limb0 ||| 1 }
      else remainder.shiftLeft 1 : Word).toNat
      = (2 * remainder.toNat + a.toNat / 2 ^ n % 2) % 2 ^ 256 := by
  have hshifted : (remainder.shiftLeft 1).toNat = 2 * remainder.toNat % 2 ^ 256 := by
    rw [toNat_shiftLeft, Nat.pow_one, Nat.mul_comm]
  have hdigit : (a.bit n).toNat = a.toNat / 2 ^ n % 2 := by
    rw [bit_eq_testBit, Nat.toNat_testBit]
  generalize remainder.shiftLeft 1 = shifted at hshifted ⊢
  rw [← hdigit]
  cases a.bit n with
  | false => simpa using hshifted
  | true =>
      have heven : shifted.limb0.toNat % 2 = 0 := by
        rw [toNat_eq] at hshifted
        omega
      rw [if_pos rfl, Bool.toNat_true]
      rw [toNat_eq] at hshifted ⊢
      dsimp only
      rw [toNat_or_one heven]
      omega

private theorem bit_255_iff (w : Word) : w.bit 255 = true ↔ 2 ^ 255 ≤ w.toNat := by
  have hw := w.toNat_lt
  rw [bit_eq_testBit, Nat.testBit_eq_decide_div_mod_eq, decide_eq_true_iff]
  omega

/-- Bringing down one digit keeps the state lawful. -/
theorem Dividing.bring_down {a b quotient remainder brought : Word} {n : Nat} (hn : n < 256)
    (h : Dividing a b (n + 1) (quotient, remainder))
    (hbrought : brought.toNat = (2 * remainder.toNat + a.toNat / 2 ^ n % 2) % 2 ^ 256) :
    Dividing a b n
      (if remainder.bit 255 || !brought.blt b then (quotient.setBit n, brought.subWrap b)
      else (quotient, brought)) := by
  obtain ⟨⟨found, hfound⟩, hbelow, hequation⟩ := h
  dsimp only at hfound hbelow hequation
  have hpos : 0 < 2 ^ n := Nat.two_pow_pos n
  have hb := b.toNat_lt
  have hdown : a.toNat / 2 ^ n = 2 * (a.toNat / 2 ^ (n + 1)) + a.toNat / 2 ^ n % 2 := by
    rw [Nat.pow_succ, ← Nat.div_div_eq_div_mul]
    omega
  rw [hfound, Nat.mul_div_cancel_left _ (Nat.two_pow_pos (n + 1))] at hequation
  have hquotient : quotient.toNat = 2 ^ n * (2 * found) := by
    rw [hfound, Nat.pow_succ, Nat.mul_assoc]
  rw [hequation] at hdown
  have hdigit : a.toNat / 2 ^ n % 2 ≤ 1 := by omega
  generalize a.toNat / 2 ^ n % 2 = digit at hbrought hdown hdigit
  -- the remainder doubled, with the digit, before anything is lost
  by_cases hfits : 2 * remainder.toNat + digit < b.toNat
  · have hcarry : ¬ remainder.bit 255 = true := by
      rw [bit_255_iff]
      omega
    have hless : brought.blt b = true := by
      rw [blt_iff]
      omega
    have hcond : ¬ (remainder.bit 255 || !brought.blt b) = true := by
      simp [hcarry, hless]
    rw [if_neg hcond]
    refine ⟨⟨2 * found, hquotient⟩, blt_iff.mp hless, ?_⟩
    dsimp only
    rw [hquotient, Nat.mul_div_cancel_left _ hpos, hdown, Nat.mul_assoc]
    omega
  · have hcond : (remainder.bit 255 || !brought.blt b) = true := by
      rw [Bool.or_eq_true, bit_255_iff, Bool.not_eq_true', ← Bool.not_eq_true, blt_iff]
      omega
    have hset : (quotient.setBit n).toNat = 2 ^ n * (2 * found + 1) := by
      rw [toNat_setBit quotient hn ⟨found, hfound⟩, hquotient, Nat.mul_succ]
    have hrest : (brought.subWrap b).toNat = 2 * remainder.toNat + digit - b.toNat := by
      rw [toNat_subWrap]
      omega
    rw [if_pos hcond]
    refine ⟨⟨2 * found + 1, hset⟩, ?_, ?_⟩
    · dsimp only
      omega
    · have hproduct : (2 * found + 1) * b.toNat = 2 * (found * b.toNat) + b.toNat := by ring
      dsimp only
      rw [hset, hrest, Nat.mul_div_cancel_left _ hpos, hdown, hproduct]
      omega

/-- The digits still to come keep a state lawful to the end. -/
theorem Dividing.divideDigits {a b : Word} {n : Nat} {state : Word × Word} (hn : n ≤ 256)
    (h : Dividing a b n state) : Dividing a b 0 (divideDigits a b n state) := by
  induction n generalizing state with
  | zero => exact h
  | succ n ih =>
      obtain ⟨quotient, remainder⟩ := state
      have hnext := h.bring_down hn (toNat_brought a remainder n)
      have hrec := ih (Nat.le_of_succ_le hn) hnext
      rw [apply_ite (Word.divideDigits a b n)] at hrec
      exact hrec

/-- When all digits are down, the state holds the quotient and the remainder. -/
theorem Dividing.result {a b : Word} {state : Word × Word} (h : Dividing a b 0 state) :
    state = (ofNat (a.toNat / b.toNat), ofNat (a.toNat % b.toNat)) := by
  obtain ⟨-, hbelow, hequation⟩ := h
  rw [Nat.pow_zero, Nat.div_one, Nat.div_one] at hequation
  have hsum : state.2.toNat + b.toNat * state.1.toNat = a.toNat := by
    rw [hequation]
    ring
  have hunique := (Nat.div_mod_unique (Nat.zero_lt_of_lt hbelow)).mpr ⟨hsum, hbelow⟩
  rw [hunique.1, hunique.2, ofNat_toNat, ofNat_toNat]

private theorem low128?_eq_some {w : Word} {m : Nat} (h : w.low128? = some m) :
    w.toNat = m ∧ m < 2 ^ 128 := by
  have h0 := w.limb0.toNat_lt
  have h1 := w.limb1.toNat_lt
  rw [low128?] at h
  split at h
  · next hzero =>
      rw [Bool.and_eq_true, beq_iff_eq, beq_iff_eq] at hzero
      have hsize : UInt64.size = 2 ^ 64 := rfl
      cases h
      rw [toNat_eq, hzero.1, hzero.2, UInt64.toNat_zero, hsize]
      omega
  · cases h

private theorem ofWide_eq_ofNat {n : Nat} (h : n < 2 ^ 128) : ofWide n = ofNat n := by
  have hsize : UInt64.size = 2 ^ 64 := rfl
  rw [eq_ofNat_iff (by omega), toNat_eq]
  simp only [ofWide, UInt64.toNat_ofNat', UInt64.toNat_zero, hsize]
  omega

/-- Long division gives the quotient and the remainder of any dividend. -/
theorem divideDigits_eq (a : Word) {b : Word} (hb : b.toNat ≠ 0) :
    divideDigits a b a.bits (zero, zero)
      = (ofNat (a.toNat / b.toNat), ofNat (a.toNat % b.toNat)) := by
  have hstart : Dividing a b a.bits (zero, zero) := by
    refine ⟨Nat.dvd_zero _, Nat.pos_of_ne_zero hb, ?_⟩
    rw [Nat.div_eq_of_lt a.toNat_lt_two_pow_bits]
    simp
  exact (hstart.divideDigits a.bits_le).result

/-- A dividend below the divisor is the remainder. -/
theorem result_of_blt {a b : Word} (h : a.blt b = true) :
    (zero, a) = (ofNat (a.toNat / b.toNat), ofNat (a.toNat % b.toNat)) := by
  have hlt := blt_iff.mp h
  rw [Nat.div_eq_of_lt hlt, Nat.mod_eq_of_lt hlt, ofNat_toNat]
  rfl

/-- Words below `2 ^ 128` are divided as numbers. -/
theorem result_of_low128? {a b : Word} {m n : Nat} (ha : a.low128? = some m)
    (hb : b.low128? = some n) :
    (ofWide (m / n), ofWide (m % n))
      = (ofNat (a.toNat / b.toNat), ofNat (a.toNat % b.toNat)) := by
  obtain ⟨rfl, hlt⟩ := low128?_eq_some ha
  obtain ⟨rfl, -⟩ := low128?_eq_some hb
  have hquotient : a.toNat / b.toNat < 2 ^ 128 := Nat.lt_of_le_of_lt (Nat.div_le_self _ _) hlt
  have hremainder : a.toNat % b.toNat < 2 ^ 128 := Nat.lt_of_le_of_lt (Nat.mod_le _ _) hlt
  rw [ofWide_eq_ofNat hquotient, ofWide_eq_ofNat hremainder]

/-- Division gives nothing for a zero divisor, and else the quotient and the
remainder. -/
theorem divMod?_eq (a b : Word) :
    a.divMod? b = if b.toNat = 0 then none
      else some (ofNat (a.toNat / b.toNat), ofNat (a.toNat % b.toNat)) := by
  rw [divMod?]
  by_cases hzero : b.isZero = true
  · rw [if_pos hzero, if_pos (isZero_iff.mp hzero)]
  have hb : b.toNat ≠ 0 := mt isZero_iff.mpr hzero
  rw [if_neg hzero, if_neg hb]
  by_cases hless : a.blt b = true
  · rw [if_pos hless, result_of_blt hless]
  rw [if_neg hless]
  split
  · next m n hm hn => rw [result_of_low128? hm hn]
  · rw [divideDigits_eq a hb]

theorem div?_eq (a b : Word) :
    a.div? b = if b.toNat = 0 then none else some (ofNat (a.toNat / b.toNat)) := by
  rw [div?, divMod?_eq]
  split <;> rfl

theorem mod?_eq (a b : Word) :
    a.mod? b = if b.toNat = 0 then none else some (ofNat (a.toNat % b.toNat)) := by
  rw [mod?, divMod?_eq]
  split <;> rfl

/-- Division is Euclidean on every path.  It gives nothing exactly for a zero divisor, and
else the one quotient and remainder of the two numbers.  Long division finds them for any
dividend; where a short cut can be taken, it leads to the same words. -/
theorem division_is_euclidean (a b : Word) :
    (a.divMod? b = none ↔ b = zero) ∧
    (b ≠ zero → ∃ quotient remainder, a.divMod? b = some (quotient, remainder) ∧
      a.toNat = quotient.toNat * b.toNat + remainder.toNat ∧ remainder.toNat < b.toNat ∧
      divideDigits a b a.bits (zero, zero) = (quotient, remainder) ∧
      (a.blt b = true → (zero, a) = (quotient, remainder)) ∧
      ∀ m n, a.low128? = some m → b.low128? = some n →
        (ofWide (m / n), ofWide (m % n)) = (quotient, remainder)) := by
  have hzero : b.toNat = 0 ↔ b = zero := by
    rw [← toNat_inj, toNat_zero]
  refine ⟨?_, fun hb => ?_⟩
  · rw [divMod?_eq, ← hzero]
    split
    · next hb => exact iff_of_true rfl hb
    · next hb => exact iff_of_false (Option.some_ne_none _) hb
  · have hb : b.toNat ≠ 0 := mt hzero.mp hb
    have hquotient : a.toNat / b.toNat < 2 ^ 256 :=
      Nat.lt_of_le_of_lt (Nat.div_le_self _ _) a.toNat_lt
    have hremainder : a.toNat % b.toNat < b.toNat := Nat.mod_lt _ (Nat.pos_of_ne_zero hb)
    refine ⟨_, _, by rw [divMod?_eq, if_neg hb], ?_, ?_, divideDigits_eq a hb, result_of_blt,
      fun m n => result_of_low128?⟩
    · rw [toNat_ofNat_of_lt hquotient, toNat_ofNat_of_lt (Nat.lt_trans hremainder b.toNat_lt),
        Nat.div_add_mod']
    · rwa [toNat_ofNat_of_lt (Nat.lt_trans hremainder b.toNat_lt)]

/-- The largest word divided by one with its highest digit set. -/
theorem division_is_euclidean_of_long_divisor :
    let b : Word := ⟨5, 0, 0, 0x8000000000000000⟩
    b ≠ zero ∧ ∃ remainder, max.divMod? b = some (one, remainder) ∧
      max.toNat = one.toNat * b.toNat + remainder.toNat ∧ remainder.toNat < b.toNat := by
  intro b
  have hb : b ≠ zero := by decide
  obtain ⟨quotient, remainder, hdivide, hequation, hbelow, -⟩ := (division_is_euclidean max b).2 hb
  have hquotient : max.div? b = some one := by decide +kernel
  rw [div?, hdivide] at hquotient
  cases hquotient
  exact ⟨hb, remainder, hdivide, hequation, hbelow⟩

end WordMachine.Word
