import Mathlib.Data.List.Basic
import WordMachine.Operand
import WordMachine.Proofs.Computation

/-!
# Laws of operand bytes

What the packed operands mean, and that encoding fields and decoding the byte
gives the fields back.

## Main results

* `Fetch.resolve_eq_constant_iff` — which operands read the pool
* `Fetch.resolve_of_encode_argument` — the flagged form reads the same argument
  under every pool
* `Fetch.resolve_byte` — the byte of a read that lies within a pool means that read
* `Zip.decode_of_encode_eq_ok`, `Selection.decode_of_encode_eq_ok`,
  `TierRange.decode_encode` — fields survive their byte
* `Zip.encode_decode`, `Selection.encode_of_decode_eq_ok`,
  `TierRange.encode_of_decode_eq_ok`, `Inspection.encode_of_decode_eq_ok` — and
  a byte survives its fields
-/

namespace WordMachine

/-- What holds of all pairs of nibbles holds of every byte. -/
theorem forall_byte {P : UInt8 → Prop} (h : ∀ high low : Fin 16, P (.ofNat (16 * high + low)))
    (x : UInt8) : P x := by
  have hlt : x.toNat < 256 := x.toNat_lt
  have hx := h ⟨x.toNat / 16, by omega⟩ ⟨x.toNat % 16, by omega⟩
  rwa [Nat.div_add_mod, UInt8.ofNat_toNat] at hx

/-- What holds of the fields of all pairs of nibbles that have fields holds of the fields of every
byte. -/
theorem forall_byte_decoded {α ε : Type} {decode : UInt8 → Except ε α} {P : UInt8 → α → Prop}
    [∀ x fields, Decidable (P x fields)]
    (h : ∀ high low : Fin 16,
      (decode (.ofNat (16 * high + low))).toOption.all (P (.ofNat (16 * high + low)) ·))
    {x : UInt8} {fields : α} (hdecode : decode x = .ok fields) : P x fields := by
  have hx : (decode x).toOption.all (P x ·) :=
    forall_byte (P := fun x => (decode x).toOption.all (P x ·)) h x
  rw [hdecode] at hx
  exact of_decide_eq_true hx

/-! ## `CONSTANT` -/

namespace Fetch

theorem flagged_iff (x : UInt8) : x &&& argumentFlag ≠ 0 ↔ maxConstantIndex < x.toNat := by
  revert x
  exact forall_byte (by decide)

/-- Setting the flag of a small index does not lose it. -/
theorem and_mask_of_or_flag (x : UInt8) :
    ¬ maxConstantIndex < x.toNat →
      (x ||| argumentFlag) &&& argumentFlag ≠ 0 ∧ (x ||| argumentFlag) &&& 0x7f = x := by
  revert x
  exact forall_byte (by decide)

private theorem decode_of_le {x : UInt8} (h : x.toNat ≤ maxConstantIndex) :
    decode x = .constant x := by
  rw [decode, if_neg]
  rw [flagged_iff]
  exact Nat.not_lt.mpr h

/-- Only an un-flagged operand below the pool's size reads the pool. -/
theorem resolve_eq_constant_iff {x i : UInt8} {pool : Nat} :
    resolve x pool = .constant i ↔ i = x ∧ x.toNat ≤ maxConstantIndex ∧ x.toNat < pool := by
  by_cases hflag : maxConstantIndex < x.toNat
  · have hdecode : decode x = .argument (x &&& 0x7f) := by
      rw [decode, if_pos ((flagged_iff x).mpr hflag)]
    rw [resolve, hdecode]
    constructor
    · intro h
      cases h
    · rintro ⟨-, hle, -⟩
      exact absurd hflag (Nat.not_lt.mpr hle)
  · have hle : x.toNat ≤ maxConstantIndex := Nat.not_lt.mp hflag
    rw [resolve, decode_of_le hle]
    dsimp only
    by_cases hpool : pool ≤ x.toNat
    · rw [if_pos hpool]
      constructor
      · intro h
        cases h
      · rintro ⟨-, -, hlt⟩
        exact absurd hpool (Nat.not_le.mpr hlt)
    · rw [if_neg hpool]
      constructor
      · intro h
        cases h
        exact ⟨rfl, hle, Nat.not_le.mp hpool⟩
      · rintro ⟨rfl, -, -⟩
        rfl

/-- The byte of an argument read means that read under every pool. -/
theorem resolve_of_encode_argument {x i : UInt8} (h : (Fetch.argument i).encode = .ok x)
    (pool : Nat) : resolve x pool = .argument i := by
  rw [encode] at h
  split at h
  · cases h
  · next hsmall =>
      cases h
      obtain ⟨hflag, hmask⟩ := and_mask_of_or_flag i hsmall
      rw [resolve, decode, if_pos hflag, hmask]

private theorem and_mask_le (x : UInt8) : (x &&& 0x7f).toNat ≤ maxConstantIndex := by
  rw [UInt8.toNat_and]
  exact Nat.and_le_right

/-- A read that an operand can express against a pool of a given size. -/
def Within (pool : Nat) : Fetch → Prop
  | .constant i => i.toNat ≤ maxConstantIndex ∧ i.toNat < pool
  | .argument i => i.toNat ≤ maxConstantIndex

theorem Within.mono {pool pool' : Nat} (hpool : pool ≤ pool') {read : Fetch}
    (h : read.Within pool) : read.Within pool' := by
  cases read with
  | constant i => exact ⟨h.1, Nat.lt_of_lt_of_le h.2 hpool⟩
  | argument i => exact h

/-- Every operand reads within the pool. -/
theorem within_resolve (x : UInt8) (pool : Nat) : (resolve x pool).Within pool := by
  cases hresolve : resolve x pool with
  | constant i =>
      obtain ⟨rfl, hsmall, hlt⟩ := resolve_eq_constant_iff.mp hresolve
      exact ⟨hsmall, hlt⟩
  | argument i =>
      show i.toNat ≤ maxConstantIndex
      by_cases hflag : maxConstantIndex < x.toNat
      · rw [resolve, decode, if_pos ((flagged_iff x).mpr hflag)] at hresolve
        cases hresolve
        exact and_mask_le x
      · have hsmall : x.toNat ≤ maxConstantIndex := Nat.not_lt.mp hflag
        rw [resolve, decode_of_le hsmall] at hresolve
        dsimp only at hresolve
        split at hresolve
        · cases hresolve
          rw [UInt8.toNat_ofNat']
          omega
        · cases hresolve

/-- The operand byte of a read; arguments are flagged. -/
def byte : Fetch → UInt8
  | .constant i => i
  | .argument i => i ||| argumentFlag

theorem encode_of_within {pool : Nat} {read : Fetch} (h : read.Within pool) :
    read.encode = .ok read.byte := by
  cases read with
  | constant i => exact if_neg (Nat.not_lt.mpr h.1)
  | argument i => exact if_neg (Nat.not_lt.mpr h)

/-- The byte of a read within the pool means that read. -/
theorem resolve_byte {pool : Nat} {read : Fetch} (h : read.Within pool) :
    resolve read.byte pool = read := by
  cases read with
  | constant i => exact resolve_eq_constant_iff.mpr ⟨rfl, h⟩
  | argument i => exact resolve_of_encode_argument (encode_of_within h) pool

end Fetch

/-! ## `ZIPMAP` -/

namespace Zip

/-- Every combination of fields that fit, packed and taken apart again. -/
theorem decode_packed : ∀ (source : Fin 8) (selector : Fin 4) (extraValues : Fin 8),
    decode (UInt8.ofNat source ||| (UInt8.ofNat selector <<< 3)
        ||| (UInt8.ofNat extraValues <<< 5))
      = ⟨.ofNat source, .ofNat selector, .ofNat extraValues⟩ := by
  decide

/-- Fields that have a byte are the fields of that byte. -/
theorem decode_of_encode_eq_ok {z : Zip} {x : UInt8} (h : z.encode = .ok x) : decode x = z := by
  obtain ⟨source, selector, extraValues⟩ := z
  rw [encode] at h
  split at h
  · cases h
  · next hsource =>
      split at h
      · cases h
      · next hselector =>
          split at h
          · cases h
          · next hvalues =>
              cases h
              have hsource' : source.toNat < 8 := Nat.lt_succ_of_le (Nat.not_lt.mp hsource)
              have hselector' : selector.toNat < 4 :=
                Nat.lt_succ_of_le (UInt8.le_iff_toNat_le.mp (UInt8.not_lt.mp hselector))
              have hvalues' : extraValues.toNat < 8 :=
                Nat.lt_succ_of_le (UInt8.le_iff_toNat_le.mp (UInt8.not_lt.mp hvalues))
              have hpacked := decode_packed ⟨_, hsource'⟩ ⟨_, hselector'⟩ ⟨_, hvalues'⟩
              simpa only [UInt8.ofNat_toNat] using hpacked

/-- The selector and the number of further values that a byte holds fit into a byte. -/
theorem decode_le (x : UInt8) : ¬ 3 < (decode x).selector ∧ ¬ 7 < (decode x).extraValues := by
  revert x
  exact forall_byte (by decide)

/-- The fields of a byte with another source that fits have a byte. -/
theorem encode_of_le {x source : UInt8} (h : source.toNat ≤ maxZipSource) :
    ∃ y, ({ decode x with source := source } : Zip).encode = .ok y := by
  obtain ⟨hselector, hvalues⟩ := decode_le x
  exact ⟨_, (if_neg (Nat.not_lt.mpr h)).trans ((if_neg hselector).trans (if_neg hvalues))⟩

/-- There is at least one lane. -/
theorem exists_range_lanes (z : Zip) : ∃ more, List.range z.lanes = 0 :: more := by
  have hlanes : z.lanes ≠ 0 := by
    rw [lanes, Nat.one_shiftLeft]
    exact Nat.ne_of_gt (Nat.two_pow_pos _)
  obtain ⟨n, hn⟩ := Nat.exists_eq_succ_of_ne_zero hlanes
  rw [hn, List.range_succ_eq_map]
  exact ⟨_, rfl⟩

/-- The fields of a byte make up that byte. -/
theorem encode_decode (x : UInt8) : (decode x).encode = .ok x := by
  revert x
  exact forall_byte (by decide)

/-- A width has the selector that stands for it. -/
theorem selectorOf?_eq_some_iff {bits : UInt16} {selector : UInt8} :
    selectorOf? bits = some selector ↔ selector ≤ 3 ∧ bits.toNat = 256 >>> selector.toNat := by
  constructor
  · intro h
    unfold selectorOf? at h
    split at h
    · next hbits => cases h; subst hbits; decide
    · split at h
      · next hbits => cases h; subst hbits; decide
      · split at h
        · next hbits => cases h; subst hbits; decide
        · split at h
          · next hbits => cases h; subst hbits; decide
          · cases h
  · rintro ⟨hselector, hbits⟩
    have hall : ∀ x : UInt8, x ≤ 3 → selectorOf? (.ofNat (256 >>> x.toNat)) = some x :=
      forall_byte (by decide)
    rw [← hall selector hselector, ← hbits, UInt16.ofNat_toNat]

/-- The fields for a source, a width and a number of values are the fields that fit into a
byte and say these. -/
theorem ofLaneBits_eq_ok_iff {source count : UInt8} {bits : UInt16} {z : Zip} :
    ofLaneBits source bits count = .ok z ↔
      z.source = source ∧ bits.toNat = z.laneBits ∧ count.toNat = z.valueCount ∧
        ∃ x, z.encode = .ok x := by
  unfold ofLaneBits
  constructor
  · intro h
    split at h
    · next selector hselector =>
        split at h
        · cases h
        · next hcount =>
            obtain ⟨x, hx, h⟩ := except_bind_eq_ok h
            cases h
            rw [not_or, UInt8.not_lt, UInt8.not_lt] at hcount
            have hone : (1 : Nat) ≤ count.toNat := UInt8.le_iff_toNat_le.mp hcount.1
            refine ⟨rfl, (selectorOf?_eq_some_iff.mp hselector).2, ?_, x, hx⟩
            show count.toNat = (count - 1).toNat + 1
            rw [UInt8.toNat_sub_of_le _ _ hcount.1]
            show count.toNat = count.toNat - 1 + 1
            omega
    · cases h
  · rintro ⟨rfl, hbits, hcount, x, hx⟩
    obtain ⟨source, selector, extraValues⟩ := z
    have hfits := decode_le x
    rw [decode_of_encode_eq_ok hx, UInt8.not_lt, UInt8.not_lt] at hfits
    have hselector : selectorOf? bits = some selector :=
      selectorOf?_eq_some_iff.mpr ⟨hfits.1, hbits⟩
    have hextra : extraValues.toNat ≤ 7 := UInt8.le_iff_toNat_le.mp hfits.2
    have hvalues : count.toNat = extraValues.toNat + 1 := hcount
    have hrange : ¬ (count < 1 ∨ 8 < count) := by
      simp only [UInt8.lt_iff_toNat_lt, UInt8.reduceToNat]
      omega
    have hone : (1 : UInt8) ≤ count := by
      simp only [UInt8.le_iff_toNat_le, UInt8.reduceToNat]
      omega
    have hless : count - 1 = extraValues := by
      rw [← UInt8.toNat_inj, UInt8.toNat_sub_of_le _ _ hone, hvalues]
      rfl
    simp only [hselector, if_neg hrange, hless]
    exact except_bind_of_ok hx _

end Zip

/-! ## `SELECT_LTE` -/

namespace Selection

/-- Every combination of fields that fit, packed and taken apart again. -/
theorem decode_packed (logic : SelectLogic) (mode : SelectMode) : ∀ count : Fin 32,
    count.val ≠ 0 →
      decode (logicField logic ||| (modeField mode <<< 5) ||| UInt8.ofNat count)
        = .ok ⟨logic, mode, .ofNat count⟩ := by
  cases logic <;> cases mode <;> decide

/-- Fields that have a byte are the fields of that byte. -/
theorem decode_of_encode_eq_ok {s : Selection} {x : UInt8} (h : s.encode = .ok x) :
    decode x = .ok s := by
  obtain ⟨logic, mode, count⟩ := s
  unfold encode at h
  split at h
  · cases h
  · next hcount =>
      cases h
      rw [not_or, UInt8.not_lt] at hcount
      have hlt : count.toNat < 32 := Nat.lt_succ_of_le (UInt8.le_iff_toNat_le.mp hcount.2)
      have hne : count.toNat ≠ 0 := fun hzero => hcount.1 (UInt8.toNat_inj.mp hzero)
      have hpacked := decode_packed logic mode ⟨_, hlt⟩ hne
      simpa only [UInt8.ofNat_toNat] using hpacked

/-- The fields of a byte make up that byte. -/
theorem encode_of_decode_eq_ok {s : Selection} {x : UInt8} (h : decode x = .ok s) :
    s.encode = .ok x :=
  forall_byte_decoded (P := fun x s => s.encode = .ok x) (by decide) h

end Selection

/-! ## `UPDATE_TIMES_FOR_TIER_RANGE` -/

namespace TierRange

/-- Every pair of bounds that fit, packed and taken apart again. -/
theorem decode_packed : ∀ start stop : Fin 9,
    decode (encode ⟨.ofNat start, .ofNat stop⟩) = .ok ⟨.ofNat start, .ofNat stop⟩ := by
  decide

/-- A range of tiers is the one that its byte says. -/
theorem decode_encode {start stop : UInt8} {r : TierRange} (h : ofBounds start stop = .ok r) :
    r = ⟨start, stop⟩ ∧ decode r.encode = .ok r := by
  unfold ofBounds at h
  split at h
  · cases h
  · next hbounds =>
      cases h
      rw [not_or, UInt8.not_lt, UInt8.not_lt] at hbounds
      have hstart : start.toNat < 9 := Nat.lt_succ_of_le (UInt8.le_iff_toNat_le.mp hbounds.1)
      have hstop : stop.toNat < 9 := Nat.lt_succ_of_le (UInt8.le_iff_toNat_le.mp hbounds.2)
      have hpacked := decode_packed ⟨_, hstart⟩ ⟨_, hstop⟩
      refine ⟨rfl, ?_⟩
      simpa only [UInt8.ofNat_toNat] using hpacked

/-- The range that a byte says has bounds that fit, and makes up that byte. -/
theorem encode_of_decode_eq_ok {r : TierRange} {x : UInt8} (h : decode x = .ok r) :
    ofBounds r.start r.stop = .ok r ∧ r.encode = x :=
  forall_byte_decoded (P := fun x r => ofBounds r.start r.stop = .ok r ∧ r.encode = x)
    (by decide) h

end TierRange

/-! ## `DEBUG` -/

/-- The part that a byte says has that byte as its number. -/
theorem Inspection.encode_of_decode_eq_ok {part : Inspection} {x : UInt8}
    (h : decode x = .ok part) : part.encode = x :=
  forall_byte_decoded (P := fun x part => part.encode = x) (by decide) h

end WordMachine
