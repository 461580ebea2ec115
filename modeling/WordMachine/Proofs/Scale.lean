import WordMachine.Proofs.Word.Limbs
import WordMachine.Proofs.Word.Power
import WordMachine.Scale

/-!
# Scaling is exact

Scaling by a power of ten is multiplication or division by the exact power, also where the
power is no word.  A product then exceeds the largest word unless the value is zero, and a
quotient is zero.  So each way to rescale ends in the exact value, or in an overflow if no
word has that value.

Scaling to 18 decimals and back again gives the value that was scaled, up to the digits that
a division has dropped.  On the way back nothing overflows.

## Main definitions

* `Scale.IsExact` — the exact value, or an overflow

## Main results

* `Scale.isExact_multiplyPower`, `Scale.isExact_dividePower` — powers of ten
* `Scale.isExact_to18`, `Scale.isExact_from18`, `Scale.isExact_byPower` — rescaling
* `Scale.scaling_is_exact_and_reversible` — all three, and the way back
-/

namespace WordMachine.Scale

/-- A scaling ends in the word with the exact value, and in an overflow exactly if no word has
that value. -/
structure IsExact (operation : String) (result : Except Fault Word) (exact : Nat) : Prop where
  eq_ok_iff : ∀ value, result = .ok value ↔ value.toNat = exact
  overflow_iff : result = .error (.arithmeticOverflow operation) ↔ 2 ^ 256 ≤ exact

variable {operation : String}

namespace IsExact

private theorem ok {value : Word} {exact : Nat} (h : value.toNat = exact) :
    IsExact operation (.ok value) exact := by
  subst h
  constructor
  · intro other
    rw [Except.ok.injEq, Word.toNat_inj, eq_comm]
  · have hlt := value.toNat_lt
    exact iff_of_false (by simp) (by omega)

theorem overflow {exact : Nat} (h : 2 ^ 256 ≤ exact) :
    IsExact operation (.error (.arithmeticOverflow operation)) exact := by
  constructor
  · intro other
    have hlt := other.toNat_lt
    exact iff_of_false (by simp) (by omega)
  · exact iff_of_true rfl h

end IsExact

/-! ## Powers of ten -/

/-- A power of ten without a word is too large for one. -/
theorem two_pow_le_ten_pow_of_pow10?_eq_none {n : UInt32} (h : Word.pow10? n = none) :
    2 ^ 256 ≤ 10 ^ n.toNat := by
  rw [Word.pow10?_eq] at h
  split at h
  · cases h
  · next hlarge =>
      have hrange : n ≤ 77 ↔ n.toNat ≤ 77 := UInt32.le_iff_toNat_le
      rw [hrange, ← Word.ten_pow_lt_iff] at hlarge
      exact Nat.not_lt.mp hlarge

private theorem toNat_of_pow10?_eq_some {n : UInt32} {power : Word}
    (h : Word.pow10? n = some power) : power.toNat = 10 ^ n.toNat := by
  rw [Word.pow10?_eq] at h
  split at h
  · next hsmall =>
      cases h
      exact Word.toNat_ofNat_of_lt (Word.ten_pow_lt_iff.mpr (UInt32.le_iff_toNat_le.mp hsmall))
  · cases h

theorem isExact_multiplyPower (operation : String) (value : Word) (n : UInt32) :
    IsExact operation (multiplyPower operation value n) (value.toNat * 10 ^ n.toNat) := by
  rw [multiplyPower]
  by_cases hzero : value.isZero = true
  · rw [if_pos hzero, Word.isZero_iff.mp hzero, Nat.zero_mul]
    exact .ok Word.toNat_zero
  · have hpos : 0 < value.toNat := Nat.pos_of_ne_zero (mt Word.isZero_iff.mpr hzero)
    rw [if_neg hzero]
    cases hpower : Word.pow10? n with
    | none =>
        have hlarge := two_pow_le_ten_pow_of_pow10?_eq_none hpower
        exact .overflow (Nat.le_trans hlarge (Nat.le_mul_of_pos_left _ hpos))
    | some power =>
        rw [Option.bind_some, Word.mul?_eq, toNat_of_pow10?_eq_some hpower]
        by_cases hfits : value.toNat * 10 ^ n.toNat < 2 ^ 256
        · rw [if_pos hfits]
          exact .ok (Word.toNat_ofNat_of_lt hfits)
        · rw [if_neg hfits]
          exact .overflow (Nat.not_lt.mp hfits)

private theorem toNat_dividePower (value : Word) (n : UInt32) :
    (dividePower value n).toNat = value.toNat / 10 ^ n.toNat := by
  have hvalue := value.toNat_lt
  rw [dividePower]
  cases hpower : Word.pow10? n with
  | none =>
      have hlarge := two_pow_le_ten_pow_of_pow10?_eq_none hpower
      rw [Nat.div_eq_of_lt (by omega)]
      exact Word.toNat_zero
  | some power =>
      have hten := toNat_of_pow10?_eq_some hpower
      have hpos : 0 < 10 ^ n.toNat := Nat.pow_pos (by decide)
      dsimp only
      rw [Word.div?_eq, hten, if_neg (by omega), Option.getD_some]
      exact Word.toNat_ofNat_of_lt (Nat.lt_of_le_of_lt (Nat.div_le_self _ _) hvalue)

theorem isExact_dividePower (operation : String) (value : Word) (n : UInt32) :
    IsExact operation (.ok (dividePower value n)) (value.toNat / 10 ^ n.toNat) :=
  .ok (toNat_dividePower value n)

/-! ## Rescaling -/

private theorem toNat_decimals : decimals.toNat = 18 := rfl

/-- Rescaling goes by the distance of the decimals from 18, in one way below and in another
above. -/
theorem isExact_of_distance {value : Word} {below above : UInt32 → Except Fault Word}
    (exactBelow exactAbove : Nat → Nat)
    (hbelow : ∀ n, IsExact operation (below n) (exactBelow n.toNat))
    (habove : ∀ n, IsExact operation (above n) (exactAbove n.toNat))
    (hsame : value.toNat = exactBelow 0) (places : UInt8) :
    IsExact operation
      (if places = decimals then .ok value
        else if places < decimals then below (decimals - places).toUInt32
        else above (places - decimals).toUInt32)
      (if places.toNat ≤ 18 then exactBelow (18 - places.toNat)
        else exactAbove (places.toNat - 18)) := by
  have hless : places < decimals ↔ places.toNat < 18 := UInt8.lt_iff_toNat_lt
  by_cases heq : places = decimals
  · rw [if_pos heq, heq, toNat_decimals, if_pos (Nat.le_refl _)]
    exact .ok hsame
  · have hne : ¬ places.toNat = decimals.toNat := mt UInt8.toNat_inj.mp heq
    rw [toNat_decimals] at hne
    rw [if_neg heq]
    by_cases hcase : places.toNat < 18
    · have hle : places ≤ decimals := UInt8.le_of_lt (hless.mpr hcase)
      have hdistance := hbelow (decimals - places).toUInt32
      rw [UInt8.toNat_toUInt32, UInt8.toNat_sub_of_le _ _ hle, toNat_decimals] at hdistance
      rw [if_pos (hless.mpr hcase), if_pos (Nat.le_of_lt hcase)]
      exact hdistance
    · have hle : decimals ≤ places := UInt8.not_lt.mp (mt hless.mp hcase)
      have hdistance := habove (places - decimals).toUInt32
      rw [UInt8.toNat_toUInt32, UInt8.toNat_sub_of_le _ _ hle, toNat_decimals] at hdistance
      rw [if_neg (mt hless.mp hcase), if_neg (by omega)]
      exact hdistance

/-- Scaling to 18 decimals multiplies while there are fewer, and else divides. -/
theorem isExact_to18 (value : Word) (places : UInt8) :
    IsExact "SCALE18" (to18 value places)
      (if places.toNat ≤ 18 then value.toNat * 10 ^ (18 - places.toNat)
        else value.toNat / 10 ^ (places.toNat - 18)) :=
  isExact_of_distance (fun n => value.toNat * 10 ^ n) (fun n => value.toNat / 10 ^ n)
    (isExact_multiplyPower _ value) (isExact_dividePower _ value) (Nat.mul_one _).symm places

/-- Scaling from 18 decimals divides while there are fewer, and else multiplies. -/
theorem isExact_from18 (value : Word) (places : UInt8) :
    IsExact "SCALEN" (from18 value places)
      (if places.toNat ≤ 18 then value.toNat / 10 ^ (18 - places.toNat)
        else value.toNat * 10 ^ (places.toNat - 18)) :=
  isExact_of_distance (fun n => value.toNat / 10 ^ n) (fun n => value.toNat * 10 ^ n)
    (isExact_dividePower _ value) (isExact_multiplyPower _ value) (Nat.div_one _).symm places

/-- The distance of a signed exponent from zero is one of few numbers. -/
theorem toNat_ofNat_natAbs (exponent : Int8) :
    (UInt32.ofNat exponent.toInt.natAbs).toNat = exponent.toInt.natAbs := by
  have hlow := exponent.le_toInt
  have hhigh := exponent.toInt_lt
  rw [UInt32.toNat_ofNat']
  omega

/-- Scaling by a signed exponent multiplies while it is not negative, and else divides. -/
theorem isExact_byPower (value : Word) (exponent : Int8) :
    IsExact "SCALE_BY" (byPower value exponent)
      (if 0 ≤ exponent.toInt then value.toNat * 10 ^ exponent.toInt.natAbs
        else value.toNat / 10 ^ exponent.toInt.natAbs) := by
  have hup := isExact_multiplyPower "SCALE_BY" value (.ofNat exponent.toInt.natAbs)
  have hdown := isExact_dividePower "SCALE_BY" value (.ofNat exponent.toInt.natAbs)
  rw [toNat_ofNat_natAbs] at hup hdown
  rw [byPower]
  split
  · exact hup
  · exact hdown

/-- Rescaling is exact for all values and all decimals.  It ends in the exact product or
quotient by a power of ten, also where the power is no word, and it overflows exactly if the
product is no word.  A value that was scaled to 18 decimals is scaled back without overflow:
to itself if there were at most 18, and else to what the dropped digits leave of it. -/
theorem scaling_is_exact_and_reversible (value : Word) (places : UInt8) (exponent : Int8) :
    IsExact "SCALE18" (to18 value places)
      (if places.toNat ≤ 18 then value.toNat * 10 ^ (18 - places.toNat)
        else value.toNat / 10 ^ (places.toNat - 18)) ∧
    IsExact "SCALEN" (from18 value places)
      (if places.toNat ≤ 18 then value.toNat / 10 ^ (18 - places.toNat)
        else value.toNat * 10 ^ (places.toNat - 18)) ∧
    IsExact "SCALE_BY" (byPower value exponent)
      (if 0 ≤ exponent.toInt then value.toNat * 10 ^ exponent.toInt.natAbs
        else value.toNat / 10 ^ exponent.toInt.natAbs) ∧
    ∀ scaled, to18 value places = .ok scaled →
      ∃ back, from18 scaled places = .ok back ∧
        back.toNat = if places.toNat ≤ 18 then value.toNat
          else value.toNat - value.toNat % 10 ^ (places.toNat - 18) := by
  refine ⟨isExact_to18 value places, isExact_from18 value places,
    isExact_byPower value exponent, fun scaled hscaled => ?_⟩
  have hforth := ((isExact_to18 value places).eq_ok_iff scaled).mp hscaled
  have hback := isExact_from18 scaled places
  by_cases hle : places.toNat ≤ 18
  · have hpos : 0 < 10 ^ (18 - places.toNat) := Nat.pow_pos (by decide)
    rw [if_pos hle] at hforth hback ⊢
    rw [hforth, Nat.mul_div_cancel _ hpos] at hback
    exact ⟨value, (hback.eq_ok_iff value).mpr rfl, rfl⟩
  · rw [if_neg hle] at hforth hback ⊢
    have hkept : value.toNat / 10 ^ (places.toNat - 18) * 10 ^ (places.toNat - 18)
        = value.toNat - value.toNat % 10 ^ (places.toNat - 18) := by
      have hsplit := Nat.div_add_mod' value.toNat (10 ^ (places.toNat - 18))
      omega
    have hlt := value.toNat_lt
    have hword := Word.toNat_ofNat_of_lt
      (Nat.lt_of_le_of_lt (Nat.sub_le value.toNat (value.toNat % 10 ^ (places.toNat - 18))) hlt)
    rw [hforth, hkept] at hback
    exact ⟨_, (hback.eq_ok_iff _).mpr hword, hword⟩

/-- Twenty decimals lose two digits on the way to 18 and back. -/
theorem scaling_is_exact_and_reversible_of_twenty :
    to18 (.ofSmall 12345) 20 = .ok (.ofSmall 123) ∧
      ∃ back, from18 (.ofSmall 123) 20 = .ok back ∧ back.toNat = 12300 := by
  have hscaled : to18 (.ofSmall 12345) 20 = .ok (.ofSmall 123) := by decide +kernel
  exact ⟨hscaled, (scaling_is_exact_and_reversible (.ofSmall 12345) 20 0).2.2.2 _ hscaled⟩

end WordMachine.Scale
