import Mathlib.Algebra.BigOperators.Intervals
import WordMachine.Machine.Step
import WordMachine.Proofs.Word.Bits

/-!
# Slices of words and lanes of reports

The slices that `ZIPMAP` makes of a word are its digits in a base that is a power of two,
most significant first, and make up the word again.  A report is a number in base `2 ^ 32`
with its lanes as digits.  Packing lanes builds that number, taking a lane reads a digit, and
slices of that width are the same lanes, counted from the other end.

## Main definitions

* `Report.lanesValue` — the number that lanes denote

## Main results

* `toNat_laneSlice`, `sum_slices` — slices are digits and make up the word
* `Report.toNat_ofLanes`, `Report.toNat_lane` — packing and reading as arithmetic
* `Report.lane_ofLanes`, `Report.ofLanes_lanes` — packed lanes are read back, and lanes that
  were read make up the report again
* `Report.laneSlice_eq_ofLane` — slices are lanes
* `Report.packing_is_reversible_and_views_agree` — packing, both ways, and both ways to count lanes
-/

namespace WordMachine

/-! ## Slices -/

theorem toNat_laneSlice (value : Word) (lane lanes bits : Nat) :
    (laneSlice value lane lanes bits).toNat
      = value.toNat / 2 ^ (bits * (lanes - 1 - lane)) % 2 ^ bits := by
  rw [laneSlice, Word.toNat_and_lowMask, Word.toNat_shiftRight]

/-- The `count` low digits of a number in some base make up its remainder. -/
theorem sum_digits (value base count : Nat) :
    ∑ i ∈ Finset.range count, value / base ^ i % base * base ^ i = value % base ^ count := by
  induction count with
  | zero => rw [Finset.sum_range_zero, Nat.pow_zero, Nat.mod_one]
  | succ count ih =>
      rw [Finset.sum_range_succ, ih, Nat.mod_pow_succ, Nat.mul_comm (base ^ count)]

/-- The slices of a word, most significant first, make up the word. -/
theorem sum_slices (value : Word) {lanes bits : Nat} (h : bits * lanes = 256) :
    ∑ lane ∈ Finset.range lanes,
        value.toNat / 2 ^ (bits * (lanes - 1 - lane)) % 2 ^ bits
          * 2 ^ (bits * (lanes - 1 - lane))
      = value.toNat := by
  rw [Finset.sum_range_reflect
    (fun i => value.toNat / 2 ^ (bits * i) % 2 ^ bits * 2 ^ (bits * i)) lanes]
  simp only [Nat.pow_mul]
  rw [sum_digits, ← Nat.pow_mul, h, Nat.mod_eq_of_lt value.toNat_lt]

namespace Report

/-! ## Lanes -/

/-- The number that lanes denote in base `2 ^ 32`, the first one least
significant. -/
def lanesValue : List UInt32 → Nat
  | [] => 0
  | value :: rest => value.toNat + 2 ^ 32 * lanesValue rest

/-- A digit of the number is the lane in its place. -/
theorem lanesValue_digit {values : List UInt32} {i : Nat} {value : UInt32}
    (h : values[i]? = some value) : lanesValue values / 2 ^ (32 * i) % 2 ^ 32 = value.toNat := by
  induction i generalizing values with
  | zero =>
      cases values with
      | nil => cases h
      | cons first rest =>
          cases h
          have hvalue := value.toNat_lt
          rw [lanesValue, Nat.mul_zero, Nat.pow_zero, Nat.div_one]
          omega
  | succ i ih =>
      cases values with
      | nil => cases h
      | cons first rest =>
          have hfirst := first.toNat_lt
          have hshift : (first.toNat + 2 ^ 32 * lanesValue rest) / 2 ^ 32 = lanesValue rest := by
            omega
          rw [lanesValue, Nat.mul_succ, Nat.add_comm (32 * i), Nat.pow_add,
            ← Nat.div_div_eq_div_mul, hshift]
          exact ih h

theorem toNat_ofLane (value : UInt32) : (ofLane value).toNat = value.toNat := by
  rw [ofLane, Word.toNat_ofUInt64, UInt32.toNat_toUInt64]

/-- Packing puts lanes above what is there already. -/
theorem toNat_packFrom {i : Nat} {acc : Word} {values : List UInt32}
    (hacc : acc.toNat < 2 ^ (32 * i)) (hlength : i + values.length ≤ 8) :
    (packFrom i acc values).toNat = acc.toNat + 2 ^ (32 * i) * lanesValue values := by
  induction values generalizing i acc with
  | nil =>
      rw [packFrom, lanesValue]
      omega
  | cons value rest ih =>
      rw [List.length_cons] at hlength
      have hvalue := value.toNat_lt
      have hnext : 2 ^ (32 * (i + 1)) = 2 ^ (32 * i) * 2 ^ 32 := by
        rw [Nat.mul_succ, Nat.pow_add]
      have htop : 2 ^ (32 * (i + 1)) ≤ 2 ^ 256 := Nat.pow_le_pow_right (by decide) (by omega)
      have hgrown : acc.toNat + 2 ^ (32 * i) * value.toNat < 2 ^ (32 * (i + 1)) := by
        have hfull : 2 ^ (32 * i) * (value.toNat + 1) ≤ 2 ^ (32 * i) * 2 ^ 32 :=
          Nat.mul_le_mul_left _ hvalue
        rw [Nat.mul_succ] at hfull
        omega
      have hshifted : ((ofLane value).shiftLeft (32 * i)).toNat = 2 ^ (32 * i) * value.toNat := by
        rw [Word.toNat_shiftLeft, toNat_ofLane, Nat.mul_comm, Nat.mod_eq_of_lt (by omega)]
      -- the new lane has no digit in common with what lies below it
      have hor : (acc.or ((ofLane value).shiftLeft (32 * i))).toNat
          = acc.toNat + 2 ^ (32 * i) * value.toNat := by
        rw [Word.toNat_or, hshifted, Nat.or_comm, ← Nat.two_pow_add_eq_or_of_lt hacc,
          Nat.add_comm]
      rw [← hor] at hgrown
      rw [packFrom, ih hgrown (by omega), hor, lanesValue, hnext]
      ring

theorem toNat_ofLanes {values : List UInt32} (h : values.length ≤ 8) :
    (ofLanes values).toNat = lanesValue values := by
  rw [ofLanes, toNat_packFrom (by decide) (by omega), Word.toNat_zero, Nat.zero_add, Nat.mul_zero,
    Nat.pow_zero, Nat.one_mul]

theorem toNat_lane (report : Word) (i : Nat) :
    (lane report i).toNat = report.toNat / 2 ^ (32 * i) % 2 ^ 32 := by
  rw [lane, Word.toNat_lowUInt32, Word.toNat_shiftRight]

/-- Lanes that are packed are read back. -/
theorem lane_ofLanes {values : List UInt32} (hlength : values.length ≤ 8) {i : Nat}
    {value : UInt32} (h : values[i]? = some value) : lane (ofLanes values) i = value := by
  apply UInt32.toNat_inj.mp
  rw [toNat_lane, toNat_ofLanes hlength, lanesValue_digit h]

/-- The lanes from a place on denote the digits of the report from that place on. -/
theorem lanesValue_map_lane (report : Word) (first count : Nat) :
    lanesValue ((List.range' first count).map (lane report))
      = report.toNat / 2 ^ (32 * first) % 2 ^ (32 * count) := by
  induction count generalizing first with
  | zero => rw [Nat.mul_zero, Nat.pow_zero, Nat.mod_one]; rfl
  | succ count ih =>
      have hnext : 2 ^ (32 * (first + 1)) = 2 ^ (32 * first) * 2 ^ 32 := by
        rw [Nat.mul_succ, Nat.pow_add]
      have hcount : 2 ^ (32 * (count + 1)) = 2 ^ 32 * 2 ^ (32 * count) := by
        rw [Nat.mul_succ, Nat.add_comm, Nat.pow_add]
      rw [List.range'_succ, List.map_cons, lanesValue, toNat_lane, ih, hnext, hcount,
        ← Nat.div_div_eq_div_mul, Nat.mod_mul]

/-- The lanes of a report make it up. -/
theorem ofLanes_lanes (report : Word) : ofLanes (lanes report) = report := by
  apply Word.toNat_inj.mp
  rw [toNat_ofLanes (by simp [lanes]), lanes, List.range_eq_range', lanesValue_map_lane,
    Nat.mul_zero, Nat.pow_zero, Nat.div_one, Nat.mod_eq_of_lt report.toNat_lt]

/-- Reports that agree in each lane are the same. -/
theorem eq_of_lanes {a b : Word} (h : ∀ i < 8, lane a i = lane b i) : a = b := by
  have hlanes : lanes a = lanes b :=
    List.map_congr_left fun i hi => h i (List.mem_range.mp hi)
  rw [← ofLanes_lanes a, hlanes, ofLanes_lanes]

/-- A slice of 32 bits is the lane in its place, counted from the top. -/
theorem laneSlice_eq_ofLane (value : Word) (i : Nat) :
    laneSlice value i 8 32 = ofLane (lane value (7 - i)) := by
  apply Word.toNat_inj.mp
  rw [toNat_laneSlice, toNat_ofLane, toNat_lane]

private theorem getElem?_lanes (report : Word) {i : Nat} (hi : i < 8) :
    (lanes report)[i]? = some (lane report i) := by
  rw [lanes, List.getElem?_map, List.getElem?_range hi, Option.map_some]

/-- Eight lanes that are packed are all read back. -/
theorem lanes_ofLanes {values : List UInt32} (h : values.length = 8) :
    lanes (ofLanes values) = values := by
  apply List.ext_getElem?
  intro i
  by_cases hi : i < 8
  · have hvalue := List.getElem?_eq_getElem (h.symm ▸ hi : i < values.length)
    rw [getElem?_lanes _ hi, lane_ofLanes (Nat.le_of_eq h) hvalue, hvalue]
  · have hpast : 8 ≤ i := Nat.not_lt.mp hi
    rw [List.getElem?_eq_none (by simpa [lanes] using hpast),
      List.getElem?_eq_none (by rwa [h])]

private theorem timeForTier_eq_ofLane (report : Word) {tier : UInt8} (h : 1 ≤ tier) :
    timeForTier report tier = ofLane (lane report (tier.toNat - 1)) := by
  refine if_neg ?_
  rintro rfl
  exact absurd h (by decide)

/-- Packing lanes is reversible: the lanes of a report make up the report, and eight lanes are
read back from the report that they make up.  Lane `i` is digit `i` of the report in base
`2 ^ 32`, the time of a tier is the lane before its number, and the slices that `ZIPMAP` makes of
a report, which it counts from the most significant one, are the lanes in the opposite order. -/
theorem packing_is_reversible_and_views_agree (report : Word) {values : List UInt32}
    (hvalues : values.length = 8) :
    ofLanes (lanes report) = report ∧
    ((lanes report).length = 8 ∧ lanes (ofLanes values) = values) ∧
    (∀ i < 8, (lanes report)[i]? = some (lane report i) ∧
      (lane report i).toNat = report.toNat / 2 ^ (32 * i) % 2 ^ 32) ∧
    (∀ tier : UInt8, 1 ≤ tier → tier ≤ 8 →
      (timeForTier report tier).toNat = (lane report (tier.toNat - 1)).toNat) ∧
    ∀ i < 8, (laneSlice report i 8 32).toNat = (lane report (7 - i)).toNat := by
  refine ⟨ofLanes_lanes report, ⟨by rw [lanes, List.length_map, List.length_range],
    lanes_ofLanes hvalues⟩, fun i hi => ⟨getElem?_lanes report hi, toNat_lane report i⟩,
    fun tier htier _ => ?_, fun i _ => ?_⟩
  · rw [timeForTier_eq_ofLane report htier, toNat_ofLane]
  · rw [laneSlice_eq_ofLane, toNat_ofLane]

/-- A lane that was never held, lanes that are zero, and a highest lane with its highest digit
set. -/
theorem packing_is_reversible_and_views_agree_of_full_lanes :
    let values : List UInt32 := [never, 0, 0, 7, 0, 0, never, 0x80000000]
    let report := ofLanes values
    values.length = 8 ∧ lanes report = values ∧ (timeForTier report 8).toNat = 2 ^ 31 ∧
      (laneSlice report 4 8 32).toNat = 7 := by
  intro values report
  have hvalues : values.length = 8 := by decide
  obtain ⟨-, ⟨-, hlanes⟩, -, htimes, hslices⟩ :=
    packing_is_reversible_and_views_agree report hvalues
  have h7 : lane report 7 = 0x80000000 := lane_ofLanes (Nat.le_of_eq hvalues) rfl
  have h3 : lane report 3 = 7 := lane_ofLanes (Nat.le_of_eq hvalues) rfl
  refine ⟨hvalues, hlanes, ?_, ?_⟩
  · exact (htimes 8 (by decide) (by decide)).trans (congrArg UInt32.toNat h7)
  · exact (hslices 4 (by decide)).trans (congrArg UInt32.toNat h3)

end Report

end WordMachine
