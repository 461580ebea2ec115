import WordMachine.Proofs.Text.Blank
import WordMachine.Proofs.Text.Numeral
import WordMachine.Proofs.Word.Value
import WordMachine.Word.Text

/-!
# Words are read as they are printed

The reader keeps the number written so far in a word and stops where it no longer fits.  The
limbs of a word, each but the first filled up to sixteen digits, write its number.

## Main results

* `Word.mul?_add?_digit` — reading one digit onto a word
* `Word.parseDigits_of_value` — a numeral of a number that fits is read as that number
* `Word.hexDigits_eq_toDigits` — the hexadecimal numeral of a word is that of its number
* `Word.parseChars_prefixedHex` — a word is read from its hexadecimal literal
-/

namespace WordMachine.Word

open Text

theorem toNat_ofSmall_mod (n : Nat) : (ofSmall n).toNat = n % 2 ^ 64 := by
  rw [ofSmall, toNat_ofUInt64]
  rfl

private theorem toNat_ofSmall {n : Nat} (h : n < 2 ^ 64) : (ofSmall n).toNat = n := by
  rw [toNat_ofSmall_mod, Nat.mod_eq_of_lt h]

/-- Reading one digit onto a word computes, as long as the number fits. -/
theorem mul?_add?_digit (acc : Word) {radix d : Nat} (hradix : radix ≤ 36) (hd : d < radix) :
    (acc.mul? (ofSmall radix)).bind (·.add? (ofSmall d))
      = if radix * acc.toNat + d < 2 ^ 256 then some (ofNat (radix * acc.toNat + d)) else none := by
  rw [mul?_eq, toNat_ofSmall (by omega), Nat.mul_comm]
  by_cases hproduct : radix * acc.toNat < 2 ^ 256
  · rw [if_pos hproduct, Option.bind_some, add?_eq, toNat_ofSmall (by omega),
      toNat_ofNat_of_lt hproduct]
  · rw [if_neg hproduct, Option.bind_none, if_neg (by omega)]

/-- A numeral of a number that fits into a word is read as that number. -/
theorem parseDigits_of_value {radix n : Nat} (hradix : radix ≤ 36) {input : String} {acc : Word}
    {text : List Char} (hvalue : valueFrom? radix acc.toNat text = some n) (hn : n < 2 ^ 256) :
    parseDigits radix input acc text = .ok (ofNat n) := by
  induction text generalizing acc with
  | nil =>
      cases hvalue
      rw [parseDigits, ofNat_toNat]
  | cons c rest ih =>
      obtain ⟨d, hd, hvalue⟩ := Option.bind_eq_some_iff.mp hvalue
      have hlt : d < radix := of_decide_eq_true (Option.filter_eq_some_iff.mp hd).2
      have hle := le_of_valueFrom?_eq_some (Nat.zero_lt_of_lt hlt) hvalue
      have hfits : radix * acc.toNat + d < 2 ^ 256 := Nat.lt_of_le_of_lt hle hn
      rw [parseDigits, hd]
      dsimp only
      rw [mul?_add?_digit acc hradix hlt, if_pos hfits]
      exact ih (by rwa [toNat_ofNat_of_lt hfits])

/-- The numeral of a word is read as that word. -/
theorem parseRadix_toDigits {radix : Nat} (hbase : 1 < radix) (hradix : radix ≤ 16) (w : Word) :
    parseRadix radix (Nat.toDigits radix w.toNat) = .ok w := by
  have hvalue := valueFrom?_toDigits hbase hradix 0 w.toNat
  rw [Nat.zero_mul, Nat.zero_add] at hvalue
  rw [parseRadix, if_neg (by simp [Nat.toDigits_ne_nil]),
    parseDigits_of_value (by omega) hvalue w.toNat_lt, ofNat_toNat]

/-- There are no blanks in a numeral. -/
theorem isBlank_of_mem_toDigits {radix : Nat} (hbase : 1 < radix) (hradix : radix ≤ 16) (n : Nat) :
    ∀ c ∈ Nat.toDigits radix n, isBlank c = false :=
  isBlank_of_valueFrom?_eq_some (valueFrom?_toDigits hbase hradix 0 n)

/-! ## Hexadecimal numerals -/

/-- A limb below the leading one adds its sixteen digits to the numeral. -/
theorem toDigits_append_limbText {high : Nat} (hhigh : 0 < high) (limb : UInt64) :
    Nat.toDigits 16 high ++ limbText limb = Nat.toDigits 16 (high * 2 ^ 64 + limb.toNat) := by
  have hlimb : limb.toNat < 16 ^ 16 := limb.toNat_lt
  exact (toDigits_mul_pow_add (by decide) hhigh (by decide) hlimb).symm

/-- The hexadecimal numeral of a word is the numeral of its number. -/
theorem hexDigits_eq_toDigits (w : Word) : w.hexDigits = Nat.toDigits 16 w.toNat := by
  have hpos {limb : UInt64} (h : limb ≠ 0) : 0 < limb.toNat :=
    Nat.pos_of_ne_zero fun hzero => h (UInt64.toNat_inj.mp hzero)
  rw [hexDigits, toNat_eq]
  split
  · next h3 =>
      have := hpos h3
      rw [toDigits_append_limbText (by omega), toDigits_append_limbText (by omega),
        toDigits_append_limbText (by omega)]
      congr 1
      omega
  · next h3 =>
      rw [not_not.mp h3, UInt64.toNat_zero]
      split
      · next h2 =>
          have := hpos h2
          rw [toDigits_append_limbText (by omega), toDigits_append_limbText (by omega)]
          congr 1
          omega
      · next h2 =>
          rw [not_not.mp h2, UInt64.toNat_zero]
          split
          · next h1 =>
              have := hpos h1
              rw [toDigits_append_limbText (by omega)]
              congr 1
              omega
          · next h1 =>
              rw [not_not.mp h1, UInt64.toNat_zero]
              rfl

/-- A word is read from its hexadecimal literal. -/
theorem parseChars_prefixedHex (w : Word) : parseChars ('0' :: 'x' :: w.hexDigits) = .ok w := by
  rw [hexDigits_eq_toDigits]
  have hblank : ∀ c ∈ '0' :: 'x' :: Nat.toDigits 16 w.toNat, isBlank c = false := by
    simp only [List.forall_mem_cons]
    exact ⟨rfl, rfl, isBlank_of_mem_toDigits (by decide) (by decide) w.toNat⟩
  rw [parseChars, trim_of_forall hblank]
  exact parseRadix_toDigits (by decide) (by decide) w

/-- A minus sign is no part of a literal. -/
theorem parseChars_minus_ne_ok (rest : List Char) (w : Word) :
    parseChars ('-' :: rest) ≠ .ok w := by
  have hdigit : Text.digitValue? 10 '-' = none := by decide
  obtain ⟨kept, hkept⟩ := exists_trim_cons (c := '-') rfl rest
  have hmark : hexLiteral? ('-' :: kept) = none := rfl
  rw [parseChars, hkept]
  simp only [hmark, parseRadix, List.isEmpty_cons, Bool.false_eq_true, if_false, parseDigits,
    hdigit]
  exact nofun

end WordMachine.Word
