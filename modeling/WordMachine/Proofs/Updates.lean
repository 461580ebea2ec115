import WordMachine.Proofs.Report

/-!
# Updating and comparing reports

An update lowers the lanes of a tier range to at most a value, which may be a word that no
lane could hold, and a difference takes lanes from lanes and stops at zero.  Both work on one
lane at a time.  So what is known of a lane makes up all that is known of a report: updates of
the same range come down to the smaller of their values, updates of any two ranges may be done
in either order, and no lane is ever raised.

## Main results

* `Report.toNat_lane_lower`, `Report.toNat_lane_difference` — a lane of an update and of a
  difference
* `Report.lower_lower`, `Report.lower_comm` — two updates of one range, and of two
* `Report.updates_and_differences_are_lanewise` — the laws of both operations
-/

namespace WordMachine

/-- The lanes of a range are those from its start to before its stop; there are none if it
stops where it starts or before. -/
theorem TierRange.laneBounds_iff (range : TierRange) (i : Nat) :
    range.laneBounds.1 ≤ i ∧ i < range.laneBounds.2
      ↔ range.start.toNat ≤ i ∧ i < range.stop.toNat := by
  rw [laneBounds]
  split
  · next hempty =>
      have hle : range.stop.toNat ≤ range.start.toNat := UInt8.le_iff_toNat_le.mp hempty
      simp only
      omega
  · rfl

private theorem TierRange.eq_of_ofBounds {start stop : UInt8} {range : TierRange}
    (h : ofBounds start stop = .ok range) : range = ⟨start, stop⟩ := by
  rw [ofBounds] at h
  split at h
  · cases h
  · cases h
    rfl

namespace Report

/-! ## One lane -/

/-- An update lowers a lane of its range to the value, which it compares as a word. -/
theorem toNat_lane_lower (report : Word) (range : TierRange) (value : Word) {i : Nat}
    (hi : i < 8) :
    (lane (lower report range value) i).toNat
      = if range.start.toNat ≤ i ∧ i < range.stop.toNat then
          min (lane report i).toNat value.toNat
        else (lane report i).toNat := by
  have hlane : lane (lower report range value) i
      = if range.laneBounds.1 ≤ i ∧ i < range.laneBounds.2 ∧
            value.blt (ofLane (lane report i)) then value.lowUInt32
        else lane report i := by
    refine lane_ofLanes (by simp) ?_
    simp [hi]
  have hblt : value.blt (ofLane (lane report i)) = true
      ↔ value.toNat < (lane report i).toNat := by
    rw [Word.blt_iff, toNat_ofLane]
  simp only [hlane, ← and_assoc, range.laneBounds_iff i, hblt]
  by_cases hrange : range.start.toNat ≤ i ∧ i < range.stop.toNat
  · rw [if_pos hrange]
    by_cases hlower : value.toNat < (lane report i).toNat
    · -- a value below a lane has no digit above the lowest 32
      have hsmall := (lane report i).toNat_lt
      rw [if_pos ⟨hrange, hlower⟩, Word.toNat_lowUInt32, Nat.mod_eq_of_lt (by omega),
        Nat.min_eq_right (Nat.le_of_lt hlower)]
    · rw [if_neg (mt And.right hlower), Nat.min_eq_left (Nat.not_lt.mp hlower)]
  · rw [if_neg hrange, if_neg (mt And.left hrange)]

private theorem toNat_laneDifference (a b : UInt32) :
    (laneDifference a b).toNat = a.toNat - b.toNat := by
  rw [laneDifference]
  split
  · next hlt =>
      have hlt' : a.toNat < b.toNat := UInt32.lt_iff_toNat_lt.mp hlt
      rw [UInt32.toNat_zero]
      omega
  · next hlt => exact UInt32.toNat_sub_of_le _ _ (UInt32.not_lt.mp hlt)

/-- A difference takes each lane from the lane in the same place. -/
theorem toNat_lane_difference (a b : Word) {i : Nat} (hi : i < 8) :
    (lane (difference a b) i).toNat = (lane a i).toNat - (lane b i).toNat := by
  have hlane : lane (difference a b) i = laneDifference (lane a i) (lane b i) := by
    refine lane_ofLanes (by simp [lanes]) ?_
    simp [lanes, hi]
  rw [hlane, toNat_laneDifference]

/-! ## Several updates -/

/-- Two updates of the same range are one with the smaller value. -/
theorem lower_lower (report : Word) (range : TierRange) (v w : Word) :
    lower (lower report range v) range w = lower report range (v.least w) := by
  refine eq_of_lanes fun i hi => UInt32.toNat_inj.mp ?_
  simp only [toNat_lane_lower _ _ _ hi, Word.toNat_least]
  split
  · exact Nat.min_assoc _ _ _
  · rfl

/-- Updates may be done in either order. -/
theorem lower_comm (report : Word) (range range' : TierRange) (v w : Word) :
    lower (lower report range v) range' w = lower (lower report range' w) range v := by
  refine eq_of_lanes fun i hi => UInt32.toNat_inj.mp ?_
  simp only [toNat_lane_lower _ _ _ hi]
  split_ifs
  · exact Nat.min_right_comm _ _ _
  all_goals rfl

private theorem lane_lower_le (report : Word) (range : TierRange) (value : Word) {i : Nat}
    (hi : i < 8) : lane (lower report range value) i ≤ lane report i := by
  rw [UInt32.le_iff_toNat_le, toNat_lane_lower report range value hi]
  split
  · exact Nat.min_le_left _ _
  · exact Nat.le_refl _

/-! ## The laws of both operations -/

variable {start stop start' stop' : UInt8} {range range' : TierRange}

/-- Updates and differences work on one lane at a time.  A lane in the range of an update
becomes the smaller of the lane and the value, and no other lane changes; hence a second
update of the same range adds up to one with the smaller value, updates of any two ranges may
be swapped, and no lane is raised.  A lane of a difference is the difference of the lanes, or
zero where that is negative, whatever the other lanes are. -/
theorem updates_and_differences_are_lanewise (report v w a b : Word)
    (hrange : TierRange.ofBounds start stop = .ok range)
    (hrange' : TierRange.ofBounds start' stop' = .ok range') :
    (∀ i < 8, (lane (lower report range v) i).toNat
      = if start.toNat ≤ i ∧ i < stop.toNat then min (lane report i).toNat v.toNat
        else (lane report i).toNat) ∧
    lower (lower report range v) range w = lower report range (v.least w) ∧
    lower (lower report range v) range' w = lower (lower report range' w) range v ∧
    (∀ i < 8, lane (lower report range v) i ≤ lane report i) ∧
    ∀ i < 8, ((lane (difference a b) i).toNat : Int)
      = max ((lane a i).toNat - (lane b i).toNat : Int) 0 := by
  obtain rfl := TierRange.eq_of_ofBounds hrange
  obtain rfl := TierRange.eq_of_ofBounds hrange'
  refine ⟨fun i hi => toNat_lane_lower report _ v hi, lower_lower report _ v w,
    lower_comm report _ _ v w, fun i hi => lane_lower_le report _ v hi, fun i hi => ?_⟩
  rw [toNat_lane_difference a b hi]
  omega

/-- The first three lanes are lowered to 7, and all from the third on to a number that no lane
can hold, which leaves them as they are. -/
theorem updates_and_differences_are_lanewise_of_wide_value :
    let report := ofLanes [5, 9, never, 9, 1, 2, 3, never]
    let v := Word.ofSmall 7
    let w := Word.ofNat (2 ^ 40)
    TierRange.ofBounds 0 3 = .ok ⟨0, 3⟩ ∧ TierRange.ofBounds 2 8 = .ok ⟨2, 8⟩ ∧
      (lane (lower report ⟨0, 3⟩ v) 2).toNat = 7 ∧
      lower (lower report ⟨0, 3⟩ v) ⟨2, 8⟩ w = lower (lower report ⟨2, 8⟩ w) ⟨0, 3⟩ v ∧
      ((lane (difference report v) 0).toNat : Int) = 0 := by
  intro report v w
  have hrange : TierRange.ofBounds 0 3 = .ok ⟨0, 3⟩ := rfl
  have hrange' : TierRange.ofBounds 2 8 = .ok ⟨2, 8⟩ := rfl
  obtain ⟨hlane, -, hcomm, -, hdifference⟩ :=
    updates_and_differences_are_lanewise report v w report v hrange hrange'
  refine ⟨hrange, hrange', ?_, hcomm, ?_⟩
  · rw [hlane 2 (by decide)]
    decide +kernel
  · rw [hdifference 0 (by decide)]
    decide +kernel

end Report

end WordMachine
