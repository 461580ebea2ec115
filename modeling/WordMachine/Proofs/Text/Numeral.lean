import Mathlib.Algebra.Order.Ring.Nat
import Mathlib.Data.List.Forall2
import Mathlib.Data.Nat.Digits.Defs
import Mathlib.Tactic.Ring
import WordMachine.Text.Numeral

/-!
# What numerals write

A numeral is read digit by digit onto what was read before it.  Its value does not depend on
where it is cut, which makes the value of a numeral in several parts that of the parts.

## Main definitions

* `Text.valueFrom?` — the number written by digits of any radix
* `Text.IsDigit`, `Text.Writes` — digits and what they make up, place by place

## Main results

* `Text.writes_iff` — a numeral is read as the number that it writes
* `Text.valueFrom?_toDigits` — the numeral of a number writes it
* `Text.toDigits_mul_pow_add` — the numeral of a number in two parts
* `Text.hexBytes?_hexText` — bytes are read from their digits
* `Text.isBlank_of_valueFrom?_eq_some` — a numeral has no blanks in it
-/

namespace WordMachine.Text

/-- The number written by digits of a radix after `acc`. -/
def valueFrom? (radix acc : Nat) : List Char → Option Nat
  | [] => some acc
  | c :: rest => do
    let d ← digitValue? radix c
    valueFrom? radix (radix * acc + d) rest

theorem decimalFrom?_eq (acc : Nat) (text : List Char) :
    decimalFrom? acc text = valueFrom? 10 acc text := by
  induction text generalizing acc with
  | nil => rfl
  | cons c rest ih => simp only [decimalFrom?, valueFrom?, ih]

/-- A numeral may be read in two parts. -/
theorem valueFrom?_append (radix acc : Nat) (first second : List Char) :
    valueFrom? radix acc (first ++ second)
      = (valueFrom? radix acc first).bind (valueFrom? radix · second) := by
  induction first generalizing acc with
  | nil => rfl
  | cons c rest ih =>
      rw [List.cons_append, valueFrom?, valueFrom?]
      cases digitValue? radix c with
      | none => rfl
      | some d => exact ih _

/-- Reading on never makes the number smaller. -/
theorem le_of_valueFrom?_eq_some {radix acc n : Nat} (hradix : 0 < radix) {text : List Char}
    (h : valueFrom? radix acc text = some n) : acc ≤ n := by
  induction text generalizing acc with
  | nil =>
      cases h
      exact Nat.le_refl n
  | cons c rest ih =>
      obtain ⟨d, -, h⟩ := Option.bind_eq_some_iff.mp h
      have hrest := ih h
      have hacc := Nat.le_mul_of_pos_left acc hradix
      omega

/-- A numeral consists of digits. -/
theorem forall_digit_of_valueFrom?_eq_some {radix acc n : Nat} {text : List Char}
    (h : valueFrom? radix acc text = some n) :
    ∀ c ∈ text, ∃ d, digitValue? radix c = some d := by
  induction text generalizing acc with
  | nil => simp
  | cons c rest ih =>
      obtain ⟨d, hd, h⟩ := Option.bind_eq_some_iff.mp h
      exact List.forall_mem_cons.mpr ⟨⟨d, hd⟩, ih h⟩

/-! ## Digits and their values -/

/-- The figures, and then the small letters, in the order of their values. -/
def smallSymbols : List Char := "0123456789abcdefghijklmnopqrstuvwxyz".toList

/-- The figures, and then the capital letters, in the order of their values. -/
def capitalSymbols : List Char := "0123456789ABCDEFGHIJKLMNOPQRSTUVWXYZ".toList

/-- The character is the digit of a radix with the value `d`. -/
def IsDigit (radix : Nat) (c : Char) (d : Nat) : Prop :=
  d < radix ∧ (smallSymbols[d]? = some c ∨ capitalSymbols[d]? = some c)

/-- The text consists of digits of a radix, most significant first, that make up `n`. -/
def Writes (radix : Nat) (text : List Char) (n : Nat) : Prop :=
  ∃ digits, List.Forall₂ (IsDigit radix) text digits ∧ Nat.ofDigits radix digits.reverse = n

/-- Symbols that stand in a row are found by their distance from the first. -/
theorem getElem?_of_row {symbols : List Char} {first place count : Nat}
    (hrow : ∀ n < count, symbols[n + place]? = some (Char.ofNat (first + n))) {c : Char}
    (hfirst : first ≤ c.toNat) (hlast : c.toNat < first + count) :
    symbols[c.toNat - first + place]? = some c := by
  rw [hrow _ (Nat.sub_lt_left_of_lt_add hfirst hlast), Nat.add_sub_cancel' hfirst,
    Char.ofNat_toNat]

private theorem symbolValue?_eq_some_iff {c : Char} {d : Nat} :
    symbolValue? c = some d ↔ smallSymbols[d]? = some c ∨ capitalSymbols[d]? = some c := by
  constructor
  · intro h
    have hfigures : ∀ n < 10, smallSymbols[n + 0]? = some (Char.ofNat (48 + n)) := by decide
    have hsmall : ∀ n < 26, smallSymbols[n + 10]? = some (Char.ofNat (97 + n)) := by decide
    have hcapital : ∀ n < 26, capitalSymbols[n + 10]? = some (Char.ofNat (65 + n)) := by decide
    rw [symbolValue?] at h
    split at h
    · next hc =>
        have hc' : 48 ≤ c.toNat ∧ c.toNat ≤ 57 := hc
        obtain rfl := Option.some_inj.mp h
        have hfound := getElem?_of_row hfigures hc'.1 (Nat.lt_succ_of_le hc'.2)
        exact .inl hfound
    · split at h
      · next hc =>
          have hc' : 97 ≤ c.toNat ∧ c.toNat ≤ 122 := hc
          obtain rfl := Option.some_inj.mp h
          have hfound := getElem?_of_row hsmall hc'.1 (Nat.lt_succ_of_le hc'.2)
          exact .inl hfound
      · split at h
        · next hc =>
            have hc' : 65 ≤ c.toNat ∧ c.toNat ≤ 90 := hc
            obtain rfl := Option.some_inj.mp h
            have hfound := getElem?_of_row hcapital hc'.1 (Nat.lt_succ_of_le hc'.2)
            exact .inr hfound
        · cases h
  · intro h
    have hlt : d < 36 := by
      obtain h | h := h
      · exact (List.getElem?_eq_some_iff.mp h).1
      · exact (List.getElem?_eq_some_iff.mp h).1
    have hsmall : ∀ n < 36, smallSymbols[n]?.bind symbolValue? = some n := by decide
    have hcapital : ∀ n < 36, capitalSymbols[n]?.bind symbolValue? = some n := by decide
    obtain h | h := h
    · have hvalue := hsmall d hlt
      rwa [h] at hvalue
    · have hvalue := hcapital d hlt
      rwa [h] at hvalue

theorem digitValue?_eq_some_iff {radix : Nat} {c : Char} {d : Nat} :
    digitValue? radix c = some d ↔ IsDigit radix c d := by
  rw [digitValue?, Option.filter_eq_some_iff, symbolValue?_eq_some_iff, IsDigit,
    decide_eq_true_iff, and_comm]

/-- Digits after a number move it up by as many places and fill them. -/
theorem valueFrom?_eq_some_iff {radix acc n : Nat} {text : List Char} :
    valueFrom? radix acc text = some n ↔ ∃ digits, List.Forall₂ (IsDigit radix) text digits ∧
      acc * radix ^ text.length + Nat.ofDigits radix digits.reverse = n := by
  induction text generalizing acc with
  | nil =>
      simp only [valueFrom?, Option.some.injEq, List.forall₂_nil_left_iff, exists_eq_left,
        List.reverse_nil, Nat.ofDigits_nil, List.length_nil, Nat.pow_zero, Nat.mul_one,
        Nat.add_zero]
  | cons c rest ih =>
      have hvalue (d : Nat) (digits : List Nat) (h : List.Forall₂ (IsDigit radix) rest digits) :
          acc * radix ^ (rest.length + 1) + Nat.ofDigits radix (d :: digits).reverse
            = (radix * acc + d) * radix ^ rest.length + Nat.ofDigits radix digits.reverse := by
        rw [List.reverse_cons, Nat.ofDigits_append, Nat.ofDigits_singleton, List.length_reverse,
          ← h.length_eq, Nat.pow_succ, Nat.add_mul]
        ring
      rw [valueFrom?, Option.bind_eq_bind, Option.bind_eq_some_iff]
      constructor
      · rintro ⟨d, hd, h⟩
        obtain ⟨digits, hdigits, rfl⟩ := ih.mp h
        exact ⟨d :: digits, .cons (digitValue?_eq_some_iff.mp hd) hdigits, hvalue d digits hdigits⟩
      · rintro ⟨_, _ | ⟨hd, hdigits⟩, rfl⟩
        exact ⟨_, digitValue?_eq_some_iff.mpr hd,
          ih.mpr ⟨_, hdigits, (hvalue _ _ hdigits).symm⟩⟩

/-- A numeral is read as the number that it writes. -/
theorem writes_iff {radix n : Nat} {text : List Char} :
    Writes radix text n ↔ valueFrom? radix 0 text = some n := by
  rw [valueFrom?_eq_some_iff, Writes]
  simp only [Nat.zero_mul, Nat.zero_add]

/-! ## Numerals of numbers -/

private theorem symbolValue?_digitChar {d : Nat} (hd : d < 16) :
    symbolValue? (Nat.digitChar d) = some d := by
  revert d
  decide

theorem digitValue?_digitChar {radix d : Nat} (hradix : radix ≤ 16) (hd : d < radix) :
    digitValue? radix (Nat.digitChar d) = some d := by
  rw [digitValue?, symbolValue?_digitChar (by omega)]
  simp [hd]

/-- The numeral of a number writes it. -/
theorem valueFrom?_toDigits {radix : Nat} (hbase : 1 < radix) (hradix : radix ≤ 16)
    (acc n : Nat) :
    valueFrom? radix acc (Nat.toDigits radix n)
      = some (acc * radix ^ (Nat.toDigits radix n).length + n) := by
  induction n using Nat.strongRecOn with
  | ind n ih =>
      by_cases hn : n < radix
      · rw [Nat.toDigits_of_lt_base hn, valueFrom?, digitValue?_digitChar hradix hn]
        simp [valueFrom?, Nat.mul_comm]
      · have hle : radix ≤ n := Nat.not_lt.mp hn
        have hlow : n % radix < radix := Nat.mod_lt n (by omega)
        rw [Nat.toDigits_of_base_le hbase hle, valueFrom?_append,
          ih (n / radix) (Nat.div_lt_self (by omega) hbase), Option.bind_some, valueFrom?,
          digitValue?_digitChar hradix hlow]
        have hsplit := Nat.div_add_mod n radix
        simp only [valueFrom?, Option.bind_eq_bind, Option.bind_some, List.length_append,
          List.length_singleton, Option.some.injEq]
        rw [Nat.mul_add, Nat.add_assoc, hsplit, Nat.pow_succ', Nat.mul_left_comm]

/-- The digits of a number that is less than a power of the radix, filled up with zeros, stand
below those of a multiple of that power. -/
theorem toDigits_mul_pow_add {radix : Nat} (hbase : 1 < radix) {high : Nat} (hhigh : 0 < high)
    {width low : Nat} (hwidth : 0 < width) (hlow : low < radix ^ width) :
    Nat.toDigits radix (high * radix ^ width + low)
      = Nat.toDigits radix high ++ (Nat.toDigits radix low).leftpad width '0' := by
  induction width, hwidth using Nat.le_induction generalizing low with
  | base =>
      rw [Nat.pow_one] at hlow ⊢
      rw [Nat.mul_comm high, ← Nat.toDigits_append_toDigits hbase hhigh hlow,
        Nat.toDigits_of_lt_base hlow]
      rfl
  | succ width hwidth ih =>
      have hlast : low % radix < radix := Nat.mod_lt low (by omega)
      have hrest : low / radix < radix ^ width := by
        rw [Nat.pow_succ'] at hlow
        exact Nat.div_lt_of_lt_mul hlow
      have hpow : 0 < high * radix ^ width := Nat.mul_pos hhigh (Nat.pow_pos (by omega))
      have hsplit : high * radix ^ (width + 1) + low
          = radix * (high * radix ^ width + low / radix) + low % radix := by
        rw [Nat.mul_add, Nat.add_assoc, Nat.div_add_mod, Nat.pow_succ', Nat.mul_left_comm]
      rw [hsplit, ← Nat.toDigits_append_toDigits hbase (Nat.add_pos_left hpow _) hlast, ih hrest,
        List.append_assoc]
      congr 1
      -- the last digit goes on its own, below the zeros and the digits before it
      by_cases hone : low < radix
      · rw [Nat.div_eq_of_lt hone, Nat.mod_eq_of_lt hone, Nat.toDigits_zero,
          Nat.toDigits_of_lt_base hone]
        obtain ⟨width, rfl⟩ := Nat.exists_eq_add_of_le' hwidth
        simp [List.leftpad, List.replicate_succ']
      · have hle : radix ≤ low := Nat.not_lt.mp hone
        rw [Nat.toDigits_of_base_le hbase hle, ← Nat.toDigits_of_lt_base hlast]
        simp [List.leftpad, Nat.toDigits_of_lt_base hlast]

/-- The numeral of a number is written with the digit characters below the radix. -/
theorem exists_digit_of_mem_toDigits {radix n : Nat} (hbase : 1 < radix) {c : Char}
    (hc : c ∈ Nat.toDigits radix n) : ∃ d < radix, c = Nat.digitChar d := by
  induction n using Nat.strongRecOn with
  | ind n ih =>
      by_cases hlt : n < radix
      · rw [Nat.toDigits_of_lt_base hlt, List.mem_singleton] at hc
        exact ⟨n, hlt, hc⟩
      · have hle : radix ≤ n := Nat.not_lt.mp hlt
        rw [Nat.toDigits_of_base_le hbase hle, List.mem_append, List.mem_singleton] at hc
        obtain hc | hc := hc
        · exact ih (n / radix) (Nat.div_lt_self (by omega) hbase) hc
        · exact ⟨n % radix, Nat.mod_lt n (by omega), hc⟩

/-- A number of 64 bits is read from its decimal digits. -/
theorem size?_toDigits {n : Nat} (hn : n < UInt64.size) :
    size? (Nat.toDigits 10 n) = some (.ofNat n) := by
  have hvalue : decimalFrom? 0 (Nat.toDigits 10 n) = some n := by
    rw [decimalFrom?_eq, valueFrom?_toDigits (by decide) (by decide), Nat.zero_mul, Nat.zero_add]
  unfold size?
  split
  · next rest htext =>
      have hsign : ∀ d < 10, '+' ≠ Nat.digitChar d := by decide
      obtain ⟨d, hd, hdigit⟩ := exists_digit_of_mem_toDigits (by decide : 1 < 10)
        (htext ▸ List.mem_cons_self)
      exact absurd hdigit (hsign d hd)
  · simp [hvalue, hn, Nat.toDigits_ne_nil]

/-- Only the numeral of zero starts with a zero. -/
theorem head?_toDigits_ne_zero {radix : Nat} (hbase : 1 < radix) (hradix : radix ≤ 16) {n : Nat}
    (hn : n ≠ 0) : (Nat.toDigits radix n).head? ≠ some '0' := by
  induction n using Nat.strongRecOn with
  | ind n ih =>
      by_cases hlt : n < radix
      · have hdigit : ∀ d, d < 16 → d ≠ 0 → Nat.digitChar d ≠ '0' := by decide
        rw [Nat.toDigits_of_lt_base hlt, List.head?_cons, ne_eq, Option.some_inj]
        exact hdigit n (by omega) hn
      · have hle : radix ≤ n := Nat.not_lt.mp hlt
        have hrest : n / radix ≠ 0 := Nat.div_ne_zero_iff.mpr ⟨by omega, hle⟩
        have hfirst := List.head?_eq_some_head (Nat.toDigits_ne_nil (n := n / radix) (b := radix))
        have hrec := ih (n / radix) (Nat.div_lt_self (by omega) hbase) hrest
        rw [Nat.toDigits_of_base_le hbase hle, List.head?_append]
        rw [hfirst] at hrec ⊢
        exact hrec

/-! ## Bytes -/

private theorem hexByte?_hexDigit (b : UInt8) :
    hexByte? (hexDigit (b.toNat / 16)) (hexDigit (b.toNat % 16)) = some b := by
  have hb := b.toNat_lt
  have hsign : ∀ d, d < 16 → Nat.digitChar d ≠ '+' := by decide
  rw [hexByte?, hexDigit, hexDigit,
    digitValue?_digitChar (Nat.le_refl 16) (Nat.mod_lt _ (by decide)),
    digitValue?_digitChar (Nat.le_refl 16) (by omega : b.toNat / 16 < 16)]
  simp only [Option.bind_eq_bind, Option.bind_some, if_neg (hsign _ (by omega : b.toNat / 16 < 16)),
    Nat.div_add_mod]
  simp

/-- Bytes are read from their digits. -/
theorem hexBytes?_hexText (bytes : List UInt8) : hexBytes? (hexText bytes) = some bytes := by
  induction bytes with
  | nil => rfl
  | cons b rest ih =>
      rw [hexText, List.flatMap_cons]
      show hexBytes? (_ :: _ :: hexText rest) = _
      rw [hexBytes?, hexByte?_hexDigit, ih]
      rfl

theorem length_hexText (bytes : List UInt8) : (hexText bytes).length = 2 * bytes.length := by
  induction bytes with
  | nil => rfl
  | cons b rest ih =>
      simp only [hexText, List.flatMap_cons, List.length_append, List.length_cons,
        List.length_nil] at ih ⊢
      omega

theorem isAscii_hexText (bytes : List UInt8) : isAscii (hexText bytes) = true := by
  have hdigit : ∀ d, d < 16 → (Nat.digitChar d).toNat < 128 := by decide
  rw [isAscii, List.all_eq_true]
  intro c hc
  obtain ⟨b, -, hc⟩ := List.mem_flatMap.mp hc
  have hb := b.toNat_lt
  rw [decide_eq_true_iff]
  simp only [List.mem_cons, List.not_mem_nil, or_false] at hc
  obtain rfl | rfl := hc
  · exact hdigit _ (by omega)
  · exact hdigit _ (by omega)

/-! ## Blanks -/

/-- A digit of any radix is not blank. -/
theorem isBlank_of_digit {radix d : Nat} {c : Char} (h : digitValue? radix c = some d) :
    isBlank c = false := by
  have hsymbol : symbolValue? c = some d := (Option.filter_eq_some_iff.mp h).1
  have hrange : (48 ≤ c.toNat ∧ c.toNat ≤ 57) ∨ (97 ≤ c.toNat ∧ c.toNat ≤ 122)
      ∨ (65 ≤ c.toNat ∧ c.toNat ≤ 90) := by
    rw [symbolValue?] at hsymbol
    split at hsymbol
    · next hc => exact .inl hc
    · split at hsymbol
      · next hc => exact .inr (.inl hc)
      · split at hsymbol
        · next hc => exact .inr (.inr hc)
        · cases hsymbol
  simp only [isBlank, Bool.or_eq_false_iff, Bool.and_eq_false_iff, decide_eq_false_iff_not,
    beq_eq_false_iff_ne]
  omega

theorem isBlank_of_valueFrom?_eq_some {radix acc n : Nat} {text : List Char}
    (h : valueFrom? radix acc text = some n) : ∀ c ∈ text, isBlank c = false := by
  intro c hc
  obtain ⟨d, hd⟩ := forall_digit_of_valueFrom?_eq_some h c hc
  exact isBlank_of_digit hd

end WordMachine.Text
