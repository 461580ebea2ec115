import WordMachine.Proofs.Word.Bits

/-!
# Powers of words

A power is taken by repeated squaring, from the most significant digit of the exponent down.
Before each round the accumulator holds the power for the digits that are already consumed.
If the power for all digits is a word, then so are this power and its square: their exponents
are no larger, and the powers of zero, which do not grow with the exponent, are at most one.
So every product on the way is a word, and a product that exceeds the largest word foretells
that the whole power does.

## Main results

* `Word.pow_lt_of_le` — a smaller exponent gives a word too
* `Word.exists_round` — a round whose result is a word makes no product that is none
* `Word.powDigits_eq` — the rounds still to come give the whole power, if it is a word
* `Word.pow?_eq`, `Word.power_is_exact` — powers exist exactly if they are words
-/

namespace WordMachine.Word

/-- One more digit of the exponent squares the power, and a digit that is set multiplies it by
the base. -/
theorem pow_div_two_pow (base exponent n : Nat) :
    base ^ (exponent / 2 ^ n)
      = base ^ (exponent / 2 ^ (n + 1)) * base ^ (exponent / 2 ^ (n + 1))
        * base ^ (exponent / 2 ^ n % 2) := by
  have hdigits : exponent / 2 ^ n
      = exponent / 2 ^ (n + 1) + exponent / 2 ^ (n + 1) + exponent / 2 ^ n % 2 := by
    rw [Nat.pow_succ, ← Nat.div_div_eq_div_mul]
    omega
  rw [← Nat.pow_add, ← Nat.pow_add, ← hdigits]

/-- If a power of a word is a word, then so is every power with a smaller exponent. -/
theorem pow_lt_of_le {base : Word} {part whole : Nat} (hle : part ≤ whole)
    (hfits : base.toNat ^ whole < 2 ^ 256) : base.toNat ^ part < 2 ^ 256 := by
  rcases Nat.eq_zero_or_pos base.toNat with hzero | hpositive
  · rw [hzero]
    exact Nat.lt_of_le_of_lt (zero_pow_le_one part) (by decide)
  · exact Nat.lt_of_le_of_lt (Nat.pow_le_pow_right hpositive hle) hfits

/-- A round squares, then multiplies where the digit is set. -/
theorem powDigits_succ (base exponent acc : Word) (n : Nat) :
    powDigits base exponent (n + 1) acc
      = (acc.mul? acc).bind fun square =>
          (if exponent.bit n then square.mul? base else some square).bind
            (powDigits base exponent n) := by
  rw [powDigits]
  cases exponent.bit n <;> rfl

section

variable {base exponent acc : Word} {n : Nat}

/-- A round whose result is a word makes no product that is none. -/
theorem exists_round
    (hacc : acc.toNat = base.toNat ^ (exponent.toNat / 2 ^ (n + 1)))
    (hfits : base.toNat ^ (exponent.toNat / 2 ^ n) < 2 ^ 256) :
    ∃ square next, acc.mul? acc = some square ∧
      (if exponent.bit n then square.mul? base else some square) = some next ∧
      next.toNat = base.toNat ^ (exponent.toNat / 2 ^ n) := by
  have hdigit : (exponent.bit n).toNat = exponent.toNat / 2 ^ n % 2 := by
    rw [bit_eq_testBit, Nat.toNat_testBit]
  have hsquare : acc.toNat * acc.toNat < 2 ^ 256 := by
    rw [hacc, ← Nat.pow_add]
    refine pow_lt_of_le ?_ hfits
    rw [Nat.pow_succ, ← Nat.div_div_eq_div_mul]
    omega
  rw [pow_div_two_pow, ← hacc, ← hdigit] at hfits ⊢
  refine ⟨ofNat (acc.toNat * acc.toNat), ?_⟩
  rw [mul?_eq, if_pos hsquare]
  cases hbit : exponent.bit n with
  | false =>
      refine ⟨_, rfl, rfl, ?_⟩
      rw [toNat_ofNat_of_lt hsquare, Bool.toNat_false, Nat.pow_zero, Nat.mul_one]
  | true =>
      rw [hbit, Bool.toNat_true, Nat.pow_one] at hfits
      refine ⟨ofNat (acc.toNat * acc.toNat * base.toNat), rfl, ?_, ?_⟩
      · rw [if_pos rfl, mul?_eq, toNat_ofNat_of_lt hsquare, if_pos hfits]
      · rw [toNat_ofNat_of_lt hfits, Bool.toNat_true, Nat.pow_one]

/-- A round whose result is no word ends the computation. -/
theorem powDigits_succ_eq_none
    (hacc : acc.toNat = base.toNat ^ (exponent.toNat / 2 ^ (n + 1)))
    (hover : 2 ^ 256 ≤ base.toNat ^ (exponent.toNat / 2 ^ n)) :
    powDigits base exponent (n + 1) acc = none := by
  have hdigit : (exponent.bit n).toNat = exponent.toNat / 2 ^ n % 2 := by
    rw [bit_eq_testBit, Nat.toNat_testBit]
  rw [pow_div_two_pow, ← hacc, ← hdigit] at hover
  rw [powDigits_succ, mul?_eq]
  by_cases hsquare : acc.toNat * acc.toNat < 2 ^ 256
  · rw [if_pos hsquare]
    cases hbit : exponent.bit n with
    | false =>
        rw [hbit, Bool.toNat_false, Nat.pow_zero, Nat.mul_one] at hover
        exact absurd hsquare (Nat.not_lt.mpr hover)
    | true =>
        rw [hbit, Bool.toNat_true, Nat.pow_one] at hover
        have hproduct : (ofNat (acc.toNat * acc.toNat)).mul? base = none := by
          rw [mul?_eq, toNat_ofNat_of_lt hsquare, if_neg (Nat.not_lt.mpr hover)]
        rw [Option.bind_some, if_pos rfl, hproduct, Option.bind_none]
  · rw [if_neg hsquare]
    rfl

/-- The rounds still to come give the whole power, if it is a word. -/
theorem powDigits_eq (hacc : acc.toNat = base.toNat ^ (exponent.toNat / 2 ^ n)) :
    powDigits base exponent n acc
      = if base.toNat ^ exponent.toNat < 2 ^ 256 then
          some (ofNat (base.toNat ^ exponent.toNat))
        else none := by
  induction n generalizing acc with
  | zero =>
      rw [Nat.pow_zero, Nat.div_one] at hacc
      rw [powDigits, ← hacc, if_pos acc.toNat_lt, ofNat_toNat]
  | succ n ih =>
      by_cases hfits : base.toNat ^ (exponent.toNat / 2 ^ n) < 2 ^ 256
      · obtain ⟨square, next, hsquare, hnext, hvalue⟩ := exists_round hacc hfits
        rw [powDigits_succ, hsquare, Option.bind_some, hnext, Option.bind_some]
        exact ih hvalue
      · have hwhole : ¬ base.toNat ^ exponent.toNat < 2 ^ 256 :=
          mt (pow_lt_of_le (Nat.div_le_self _ _)) hfits
        rw [powDigits_succ_eq_none hacc (Nat.not_lt.mp hfits), if_neg hwhole]

end

/-- A power exists exactly if it is a word. -/
theorem pow?_eq (base exponent : Word) :
    base.pow? exponent
      = if base.toNat ^ exponent.toNat < 2 ^ 256 then
          some (ofNat (base.toNat ^ exponent.toNat))
        else none := by
  rw [pow?]
  split
  · next hzero =>
      rw [isZero_iff.mp hzero, Nat.pow_zero, if_pos (by decide)]
      rfl
  · next hpositive =>
      have hexponent : exponent.toNat ≠ 0 := mt isZero_iff.mpr hpositive
      split
      · next hspecial =>
          rw [Bool.or_eq_true, beq_iff_eq] at hspecial
          have hpower : base.toNat ^ exponent.toNat = base.toNat := by
            rcases hspecial with hzero | rfl
            · rw [isZero_iff.mp hzero, Nat.zero_pow (Nat.pos_of_ne_zero hexponent)]
            · rw [toNat_one, Nat.one_pow]
          rw [hpower, if_pos base.toNat_lt, ofNat_toNat]
      · next =>
          refine powDigits_eq ?_
          rw [Nat.div_eq_of_lt exponent.toNat_lt_two_pow_bits, toNat_one, Nat.pow_zero]

/-- The powers of ten that are words are those up to the 77th. -/
theorem ten_pow_lt_iff {n : Nat} : 10 ^ n < 2 ^ 256 ↔ n ≤ 77 := by
  constructor
  · intro hlt
    by_contra hlarge
    have hnext : 10 ^ 78 ≤ 10 ^ n := Nat.pow_le_pow_right (by decide) (Nat.not_le.mp hlarge)
    have hbound : 2 ^ 256 ≤ 10 ^ 78 := by decide
    exact absurd hlt (Nat.not_lt.mpr (Nat.le_trans hbound hnext))
  · intro hle
    have hlast : 10 ^ 77 < 2 ^ 256 := by decide
    exact Nat.lt_of_le_of_lt (Nat.pow_le_pow_right (by decide) hle) hlast

theorem pow10?_eq (n : UInt32) :
    pow10? n = if n ≤ 77 then some (ofNat (10 ^ n.toNat)) else none := by
  have hten : (ofSmall 10).toNat = 10 := rfl
  have hexponent : (ofUInt64 n.toUInt64).toNat = n.toNat := by
    rw [toNat_ofUInt64, UInt32.toNat_toUInt64]
  have hrange : n ≤ 77 ↔ n.toNat ≤ 77 := UInt32.le_iff_toNat_le
  rw [pow10?, pow?_eq, hten, hexponent]
  simp only [ten_pow_lt_iff, hrange]

/-- Powers are exact for every exponent.  A power exists exactly if it is a word, and it is
missing exactly if it exceeds the largest word.  If it is a word, then every square and every
product on the way to it is the exact power for the digits consumed up to then.  So the powers
of ten exist up to the 77th and no further. -/
theorem power_is_exact (base exponent : Word) :
    (∀ power, base.pow? exponent = some power ↔
      power.toNat = base.toNat ^ exponent.toNat) ∧
    (base.pow? exponent = none ↔ 2 ^ 256 ≤ base.toNat ^ exponent.toNat) ∧
    (base.toNat ^ exponent.toNat < 2 ^ 256 →
      ∀ n, ∃ acc square next : Word, acc.toNat = base.toNat ^ (exponent.toNat / 2 ^ (n + 1)) ∧
        acc.mul? acc = some square ∧
        (if exponent.bit n then square.mul? base else some square) = some next ∧
        next.toNat = base.toNat ^ (exponent.toNat / 2 ^ n)) ∧
    ∀ n : UInt32,
      (n ≤ 77 → ∃ power, pow10? n = some power ∧ power.toNat = 10 ^ n.toNat) ∧
      (77 < n → pow10? n = none) := by
  refine ⟨fun power => ?_, ?_, ?_, fun n => ⟨fun hle => ?_, fun hlt => ?_⟩⟩
  · rw [pow?_eq]
    constructor
    · intro hsome
      split at hsome
      · next hfits =>
          cases hsome
          exact toNat_ofNat_of_lt hfits
      · cases hsome
    · intro hvalue
      rw [← hvalue, if_pos power.toNat_lt, ofNat_toNat]
  · rw [pow?_eq, ← Nat.not_lt]
    split
    · next hfits => exact iff_of_false (Option.some_ne_none _) (not_not_intro hfits)
    · next hover => exact iff_of_true rfl hover
  · intro hfits n
    have hpart : ∀ k, base.toNat ^ (exponent.toNat / 2 ^ k) < 2 ^ 256 := fun k =>
      pow_lt_of_le (Nat.div_le_self _ _) hfits
    obtain ⟨square, next, hround⟩ := exists_round (toNat_ofNat_of_lt (hpart (n + 1))) (hpart n)
    exact ⟨_, square, next, toNat_ofNat_of_lt (hpart (n + 1)), hround⟩
  · have hfits : 10 ^ n.toNat < 2 ^ 256 := ten_pow_lt_iff.mpr (UInt32.le_iff_toNat_le.mp hle)
    exact ⟨_, by rw [pow10?_eq, if_pos hle], toNat_ofNat_of_lt hfits⟩
  · rw [pow10?_eq, if_neg (UInt32.not_le.mpr hlt)]

/-- The largest power of three that is a word, and the next one. -/
theorem power_is_exact_of_three :
    let three := ofSmall 3
    (∃ power, three.pow? (ofSmall 161) = some power ∧ power.toNat = 3 ^ 161) ∧
      three.pow? (ofSmall 162) = none := by
  intro three
  have hfits : 3 ^ 161 < 2 ^ 256 := by decide
  have hover : 2 ^ 256 ≤ 3 ^ 162 := by decide
  refine ⟨⟨ofNat (3 ^ 161), ?_, toNat_ofNat_of_lt hfits⟩, ?_⟩
  · exact ((power_is_exact three (ofSmall 161)).1 _).mpr (toNat_ofNat_of_lt hfits)
  · exact (power_is_exact three (ofSmall 162)).2.1.mpr hover

end WordMachine.Word
