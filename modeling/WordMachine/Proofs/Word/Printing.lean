import WordMachine.Proofs.Word.Limbs
import WordMachine.Proofs.Word.Text

/-!
# Words are printed by their numerals

The decimal numeral of a word is cut off in chunks of nineteen digits, by dividing by ten to
the nineteenth until nothing is left.  The division goes from limb to limb with a remainder
below the divisor, so that each step has a quotient of 64 bits, and the step is computed here
once more in registers that refuse anything too large.

Chunks but the first are filled up with zeros, and so are limbs in hexadecimal.  What comes out
is the numeral of the word's number, and it is read back as the word.

## Main definitions

* `Word.divModSmall128?` — the division in registers of 128 and 64 bits
* `Word.Chunks` — the remainders with which the division loop ends

## Main results

* `Word.divModSmall_spec`, `Word.divModSmall128?_eq` — quotients and remainders are exact, and
  registers are large enough
* `Word.chunks_decimalChunks` — the loop ends within five rounds
* `Word.decimalDigits_eq_toDigits` — the decimal numeral of a word is that of its number
* `Word.printing_is_canonical_and_read_back` — all of this
-/

namespace WordMachine.Word

open Text

/-! ## Dividing limb by limb -/

/-- A number, if a register of 64 bits can hold it. -/
def within64? (n : Nat) : Option Nat := if n < 2 ^ 64 then some n else none

/-- A step of the division, with each number on the way held in a register: the remainder moved
up and the limb below it in 128 bits, and the quotient in 64. -/
def divCell128? (remainder : Nat) (limb divisor : UInt64) : Option (UInt64 × Nat) := do
  let moved ← within128? (remainder * UInt64.size)
  let current ← within128? (moved + limb.toNat)
  let quotient ← within64? (current / divisor.toNat)
  return (.ofNat quotient, current % divisor.toNat)

/-- The division, each step of it held in registers, and the last remainder in 64 bits. -/
def divModSmall128? (w : Word) (divisor : UInt64) : Option (Word × UInt64) := do
  let (q3, r3) ← divCell128? 0 w.limb3 divisor
  let (q2, r2) ← divCell128? r3 w.limb2 divisor
  let (q1, r1) ← divCell128? r2 w.limb1 divisor
  let (q0, r0) ← divCell128? r1 w.limb0 divisor
  let last ← within64? r0
  return (⟨q0, q1, q2, q3⟩, .ofNat last)

private theorem within64?_of_lt {n : Nat} (h : n < 2 ^ 64) : within64? n = some n := if_pos h

section

variable {divisor : UInt64}

/-- The quotient of a limb below a remainder is a limb. -/
theorem current_div_lt {remainder : Nat} (hremainder : remainder < divisor.toNat) (limb : UInt64) :
    (remainder * UInt64.size + limb.toNat) / divisor.toNat < 2 ^ 64 := by
  have hlimb := limb.toNat_lt
  have hsize : UInt64.size = 2 ^ 64 := rfl
  have hle : (remainder + 1) * 2 ^ 64 ≤ divisor.toNat * 2 ^ 64 :=
    Nat.mul_le_mul_right _ hremainder
  rw [hsize]
  refine Nat.div_lt_of_lt_mul ?_
  omega

private theorem divCell128?_eq {remainder : Nat} (hremainder : remainder < divisor.toNat)
    (limb : UInt64) :
    divCell128? remainder limb divisor = some (divCell remainder limb divisor) := by
  have hlimb := limb.toNat_lt
  have hdivisor := divisor.toNat_lt
  have hsize : UInt64.size = 2 ^ 64 := rfl
  have hmoved : remainder * UInt64.size + limb.toNat < 2 ^ 128 := by
    rw [hsize]
    omega
  rw [divCell128?, within128?_of_lt (Nat.lt_of_le_of_lt (Nat.le_add_right _ _) hmoved),
    Option.bind_eq_bind, Option.bind_some, within128?_of_lt hmoved, Option.bind_some,
    within64?_of_lt (current_div_lt hremainder limb)]
  rfl

/-- A step of the division leaves the quotient and the remainder of what it started from. -/
theorem divCell_spec {remainder : Nat} (hremainder : remainder < divisor.toNat) (limb : UInt64) :
    (divCell remainder limb divisor).1.toNat * divisor.toNat
        + (divCell remainder limb divisor).2 = remainder * 2 ^ 64 + limb.toNat ∧
      (divCell remainder limb divisor).2 < divisor.toNat := by
  have hpos : 0 < divisor.toNat := Nat.zero_lt_of_lt hremainder
  simp only [divCell]
  rw [UInt64.toNat_ofNat_of_lt' (current_div_lt hremainder limb)]
  exact ⟨Nat.div_add_mod' _ _, Nat.mod_lt _ hpos⟩

/-- The quotient and the remainder make up the word, and the remainder is less than the
divisor. -/
theorem divModSmall_spec (w : Word) (h : divisor ≠ 0) :
    (w.divModSmall divisor).1.toNat * divisor.toNat + (w.divModSmall divisor).2.toNat = w.toNat ∧
      (w.divModSmall divisor).2.toNat < divisor.toNat := by
  have hpos : 0 < divisor.toNat := Nat.pos_of_ne_zero fun hzero => h (UInt64.toNat_inj.mp hzero)
  have hdivisor := divisor.toNat_lt
  obtain ⟨h3, hr3⟩ := divCell_spec hpos w.limb3
  obtain ⟨h2, hr2⟩ := divCell_spec hr3 w.limb2
  obtain ⟨h1, hr1⟩ := divCell_spec hr2 w.limb1
  obtain ⟨h0, hr0⟩ := divCell_spec hr1 w.limb0
  simp only [divModSmall]
  rw [UInt64.toNat_ofNat_of_lt' (Nat.lt_trans hr0 hdivisor)]
  refine ⟨?_, hr0⟩
  rw [toNat_eq, toNat_eq]
  simp only [Nat.add_mul, Nat.mul_assoc]
  omega

/-- Nothing is cut off on the way to the quotient and the remainder. -/
theorem divModSmall128?_eq (w : Word) (h : divisor ≠ 0) :
    w.divModSmall128? divisor = some (w.divModSmall divisor) := by
  have hpos : 0 < divisor.toNat := Nat.pos_of_ne_zero fun hzero => h (UInt64.toNat_inj.mp hzero)
  have hstep {remainder : Nat} (limb : UInt64) (hremainder : remainder < divisor.toNat) :
      ∃ q r, divCell remainder limb divisor = (q, r) ∧
        divCell128? remainder limb divisor = some (q, r) ∧ r < divisor.toNat :=
    ⟨_, _, rfl, divCell128?_eq hremainder limb, (divCell_spec hremainder limb).2⟩
  obtain ⟨q3, r3, hcell3, hcell3', hr3⟩ := hstep w.limb3 hpos
  obtain ⟨q2, r2, hcell2, hcell2', hr2⟩ := hstep w.limb2 hr3
  obtain ⟨q1, r1, hcell1, hcell1', hr1⟩ := hstep w.limb1 hr2
  obtain ⟨q0, r0, hcell0, hcell0', hr0⟩ := hstep w.limb0 hr1
  have hlast := within64?_of_lt (Nat.lt_trans hr0 divisor.toNat_lt)
  have hresult : w.divModSmall divisor = (⟨q0, q1, q2, q3⟩, .ofNat r0) := by
    simp only [divModSmall, hcell3, hcell2, hcell1, hcell0]
  rw [hresult, divModSmall128?]
  refine Option.bind_eq_some_iff.mpr ⟨_, hcell3', ?_⟩
  refine Option.bind_eq_some_iff.mpr ⟨_, hcell2', ?_⟩
  refine Option.bind_eq_some_iff.mpr ⟨_, hcell1', ?_⟩
  refine Option.bind_eq_some_iff.mpr ⟨_, hcell0', ?_⟩
  exact Option.bind_eq_some_iff.mpr ⟨_, hlast, rfl⟩

end

/-! ## The loop of chunks -/

/-- Dividing by ten to the nineteenth, from a word on until nothing is left, ends with these
remainders. -/
inductive Chunks : Word → List UInt64 → Prop where
  | done {w : Word} (h : w.isZero = true) : Chunks w []
  | more {w : Word} {rest : List UInt64} (h : w.isZero = false)
    (hrest : Chunks (w.divModSmall decimalChunk).1 rest) :
    Chunks w ((w.divModSmall decimalChunk).2 :: rest)

private theorem decimalChunk_spec (w : Word) :
    (w.divModSmall decimalChunk).1.toNat * 10 ^ 19 + (w.divModSmall decimalChunk).2.toNat
        = w.toNat ∧ (w.divModSmall decimalChunk).2.toNat < 10 ^ 19 :=
  w.divModSmall_spec (show decimalChunk ≠ 0 by decide)

/-- With as many rounds as the word has chunks, the loop ends. -/
theorem chunks_of_lt {budget : Nat} {w : Word} (h : w.toNat < (10 ^ 19) ^ budget) :
    Chunks w (decimalChunks budget w) := by
  induction budget generalizing w with
  | zero =>
      have hzero : w.toNat = 0 := by
        rw [Nat.pow_zero] at h
        omega
      exact .done (isZero_iff.mpr hzero)
  | succ budget ih =>
      rw [decimalChunks]
      split
      · next hzero => exact .done hzero
      · next hzero =>
          obtain ⟨hsplit, -⟩ := w.decimalChunk_spec
          refine .more (Bool.not_eq_true _ ▸ hzero) (ih ?_)
          rw [Nat.pow_succ] at h
          exact Nat.lt_of_mul_lt_mul_right (a := 10 ^ 19) (by omega)

/-- Five rounds are enough for every word. -/
theorem chunks_decimalChunks (w : Word) : Chunks w (decimalChunks 5 w) :=
  chunks_of_lt (Nat.lt_of_lt_of_le w.toNat_lt (by decide))

/-- A chunk below the leading one adds its nineteen digits to the numeral. -/
theorem toDigits_append_chunkText {high : Nat} (hhigh : 0 < high) {chunk : UInt64}
    (hchunk : chunk.toNat < 10 ^ 19) :
    Nat.toDigits 10 high ++ chunkText chunk = Nat.toDigits 10 (high * 10 ^ 19 + chunk.toNat) :=
  (toDigits_mul_pow_add (by decide) hhigh (by decide) hchunk).symm

/-- Chunks in reverse order, with all but the first filled up, are the numeral of the word. -/
theorem Chunks.numeral {w : Word} {chunks : List UInt64} (h : Chunks w chunks)
    (hw : w.isZero = false) :
    ∃ first rest, chunks.reverse = first :: rest ∧
      Nat.toDigits 10 first.toNat ++ rest.flatMap chunkText = Nat.toDigits 10 w.toNat := by
  induction h with
  | done hzero =>
      rw [hzero] at hw
      cases hw
  | @more w rest _ hrest ih =>
      obtain ⟨hsplit, hchunk⟩ := w.decimalChunk_spec
      cases hquotient : (w.divModSmall decimalChunk).1.isZero with
      | true =>
          have hzero := isZero_iff.mp hquotient
          cases hrest with
          | more hnonzero =>
              rw [hquotient] at hnonzero
              cases hnonzero
          | done =>
              refine ⟨_, [], rfl, ?_⟩
              rw [List.flatMap_nil, List.append_nil, ← hsplit, hzero, Nat.zero_mul, Nat.zero_add]
      | false =>
          have hpos : 0 < (w.divModSmall decimalChunk).1.toNat :=
            Nat.pos_of_ne_zero fun hzero => by
              rw [isZero_iff.mpr hzero] at hquotient
              cases hquotient
          obtain ⟨first, middle, hreverse, hdigits⟩ := ih hquotient
          refine ⟨first, middle ++ [(w.divModSmall decimalChunk).2], ?_, ?_⟩
          · rw [List.reverse_cons, hreverse, List.cons_append]
          · rw [List.flatMap_append, ← List.append_assoc, hdigits, List.flatMap_singleton,
              toDigits_append_chunkText hpos hchunk, hsplit]

/-! ## Numerals -/

/-- The decimal numeral of a word is the numeral of its number. -/
theorem decimalDigits_eq_toDigits (w : Word) : w.decimalDigits = Nat.toDigits 10 w.toNat := by
  cases hzero : w.isZero with
  | true =>
      rw [isZero_iff.mp hzero, Nat.toDigits_zero, decimalDigits, decimalChunks, if_pos hzero]
      rfl
  | false =>
      obtain ⟨first, rest, hreverse, hdigits⟩ := w.chunks_decimalChunks.numeral hzero
      rw [decimalDigits, hreverse]
      exact hdigits

/-- A decimal numeral has no mark in front. -/
theorem hexLiteral?_toDigits (n : Nat) : hexLiteral? (Nat.toDigits 10 n) = none := by
  have hdigit : ∀ c ∈ Nat.toDigits 10 n, c.isDigit = true :=
    fun c hc => Nat.isDigit_of_mem_toDigits (by decide) (by decide) hc
  rw [hexLiteral?.eq_def]
  split
  · next heq =>
      rw [heq] at hdigit
      exact absurd (hdigit 'x' (by simp)) (by decide)
  · next heq =>
      rw [heq] at hdigit
      exact absurd (hdigit 'X' (by simp)) (by decide)
  · rfl

/-- A word is read from its decimal digits. -/
theorem parseChars_toDigits (w : Word) : parseChars (Nat.toDigits 10 w.toNat) = .ok w := by
  rw [parseChars, trim_of_forall (isBlank_of_mem_toDigits (by decide) (by decide) w.toNat),
    hexLiteral?_toDigits]
  exact parseRadix_toDigits (by decide) (by decide) w

private theorem parse_decimal (w : Word) : parse w.decimal = .ok w := by
  rw [parse, decimal, String.toList_ofList, decimalDigits_eq_toDigits, parseChars_toDigits]

private theorem parse_prefixedHex (w : Word) : parse w.prefixedHex = .ok w := by
  rw [parse, prefixedHex, String.toList_ofList, parseChars_prefixedHex]

/-- Words are printed by their numerals and read back.  Decimal and hexadecimal numerals are
those of the word's number, the latter with small letters, and neither starts with a zero but
for the word zero.  Printing in decimal divides by ten to the nineteenth until nothing is left,
and this ends within five rounds; a division by a number of 64 bits is exact, and no step of it
is cut off. -/
theorem printing_is_canonical_and_read_back (w : Word) :
    parse w.decimal = .ok w ∧ parse w.prefixedHex = .ok w ∧
    w.prefixedHex = "0x" ++ w.hex ∧
    w.decimal.toList = Nat.toDigits 10 w.toNat ∧ w.hex.toList = Nat.toDigits 16 w.toNat ∧
    (w = zero → w.decimal = "0" ∧ w.hex = "0") ∧
    (w ≠ zero → w.decimal.toList.head? ≠ some '0' ∧ w.hex.toList.head? ≠ some '0') ∧
    (∀ c ∈ w.hex.toList, c ∈ "0123456789abcdef".toList) ∧
    Chunks w (decimalChunks 5 w) ∧
    ∀ divisor ≠ 0,
      (w.divModSmall divisor).1.toNat * divisor.toNat + (w.divModSmall divisor).2.toNat
          = w.toNat ∧
        (w.divModSmall divisor).2.toNat < divisor.toNat ∧
        w.divModSmall128? divisor = some (w.divModSmall divisor) := by
  have hdecimal : w.decimal.toList = Nat.toDigits 10 w.toNat := by
    rw [decimal, String.toList_ofList, decimalDigits_eq_toDigits]
  have hhex : w.hex.toList = Nat.toDigits 16 w.toNat := by
    rw [hex, String.toList_ofList, hexDigits_eq_toDigits]
  refine ⟨w.parse_decimal, w.parse_prefixedHex, ?_, hdecimal, hhex, ?_, fun hw => ?_, ?_,
    w.chunks_decimalChunks, fun divisor hdivisor => ?_⟩
  · show String.ofList ("0x".toList ++ w.hexDigits) = "0x" ++ String.ofList w.hexDigits
    rw [String.ofList_append, String.ofList_toList]
  · rintro rfl
    exact ⟨rfl, rfl⟩
  · have hne : w.toNat ≠ 0 := fun hzero => hw (toNat_inj.mp hzero)
    rw [hdecimal, hhex]
    exact ⟨head?_toDigits_ne_zero (by decide) (by decide) hne,
      head?_toDigits_ne_zero (by decide) (by decide) hne⟩
  · have hsmall : ∀ d < 16, Nat.digitChar d ∈ "0123456789abcdef".toList := by decide
    intro c hc
    rw [hhex] at hc
    obtain ⟨d, hd, rfl⟩ := exists_digit_of_mem_toDigits (by decide) hc
    exact hsmall d hd
  · obtain ⟨hsplit, hlt⟩ := w.divModSmall_spec hdivisor
    exact ⟨hsplit, hlt, w.divModSmall128?_eq hdivisor⟩

/-- The chunk in the middle is zero, and so are digits at the front of the last one. -/
theorem printing_is_canonical_and_read_back_of_inner_zeros :
    let w := ofNat (10 ^ 38 + 5)
    w ≠ zero ∧ w.decimal = "100000000000000000000000000000000000005" ∧
      parse "100000000000000000000000000000000000005" = .ok w ∧
      w.decimal.toList.head? ≠ some '0' ∧ (7 : UInt64) ≠ 0 ∧
      (w.divModSmall 7).2.toNat < (7 : UInt64).toNat := by
  intro w
  have hw : w ≠ zero := by decide
  have hprinted : w.decimal = "100000000000000000000000000000000000005" := by decide +kernel
  obtain ⟨hread, -, -, -, -, -, hhead, -, -, hdivision⟩ := printing_is_canonical_and_read_back w
  exact ⟨hw, hprinted, hprinted ▸ hread, (hhead hw).1, by decide,
    (hdivision 7 (by decide)).2.1⟩

end WordMachine.Word
