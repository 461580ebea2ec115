import WordMachine.Proofs.Report

/-!
# Selecting among reports

A selection goes lane by lane.  The times of a lane that count are those up to the threshold
at which the tier was held at all; the largest lane value stands for a tier that was never
held, so it does not count even under a threshold above all times.  What a selection leaves in
a lane is the least, the greatest or the last of the times that count, or the largest lane
value where none does or where all had to.

The least and the greatest value do not depend on the order of the reports.

## Main definitions

* `Report.Eligible`, `Report.eligible` — the times that count
* `Report.capped` — a time with those past the threshold put to the largest lane value
* `Report.Takes` — what a mode takes from times

## Main results

* `Report.lane_select` — a lane of a selection is the selection in that lane
* `Report.takes_reduce`, `Report.Takes.perm` — what a mode takes, in any order
* `Report.selection_is_lanewise` — each logic and mode, lane by lane
-/

namespace WordMachine.Report

/-! ## The times that count -/

/-- The tier was held, since a time up to the threshold. -/
def Eligible (threshold : Word) (value : UInt32) : Prop :=
  value.toNat ≤ threshold.toNat ∧ value ≠ never

instance (threshold : Word) : DecidablePred (Eligible threshold) := fun _ =>
  inferInstanceAs (Decidable (_ ∧ _))

/-- The times of a lane that count, in the order of the reports. -/
def eligible (threshold : Word) (i : Nat) (reports : List Word) : List UInt32 :=
  (reports.map fun report => lane report i).filter (Eligible threshold ·)

/-- The time, or the largest lane value for one past the threshold. -/
def capped (threshold : Word) (value : UInt32) : UInt32 :=
  if value.toNat ≤ threshold.toNat then value else never

variable {threshold : Word}

private theorem le_never (value : UInt32) : value ≤ never := by
  have hvalue := value.toNat_lt
  have hnever : never.toNat = 2 ^ 32 - 1 := rfl
  rw [UInt32.le_iff_toNat_le]
  omega

private theorem withinThreshold_eq_capped (threshold : Word) (value : UInt32) :
    withinThreshold threshold value = capped threshold value := by
  have hblt : threshold.blt (ofLane value) = true ↔ threshold.toNat < value.toNat := by
    rw [Word.blt_iff, toNat_ofLane]
  rw [withinThreshold, capped]
  by_cases hle : value.toNat ≤ threshold.toNat
  · rw [if_pos hle, if_neg (mt hblt.mp (Nat.not_lt.mpr hle))]
  · rw [if_neg hle, if_pos (hblt.mpr (Nat.not_le.mp hle))]

private theorem capped_eq_never_iff {value : UInt32} :
    capped threshold value = never ↔ ¬ Eligible threshold value := by
  rw [capped, Eligible]
  split
  · next hle => simp [hle]
  · next hle => simp [hle]

private theorem capped_of_eligible {value : UInt32} (h : Eligible threshold value) :
    capped threshold value = value := if_pos h.1

/-- The candidates that are not the largest lane value are the times that count. -/
theorem filter_capped (threshold : Word) (values : List UInt32) :
    (values.map (capped threshold)).filter (· != never)
      = values.filter (Eligible threshold ·) := by
  induction values with
  | nil => rfl
  | cons value rest ih =>
      rw [List.map_cons]
      by_cases h : Eligible threshold value
      · have hcapped := capped_of_eligible h
        rw [List.filter_cons_of_pos (by simp [hcapped, h.2]), List.filter_cons_of_pos (by simpa),
          ih, hcapped]
      · have hcapped := capped_eq_never_iff.mpr h
        rw [List.filter_cons_of_neg (by simp [hcapped]), List.filter_cons_of_neg (by simpa), ih]

/-! ## What a mode takes -/

instance lawfulOrderMaxUInt32 : Std.LawfulOrderMax UInt32 :=
  have hmax : ∀ a b : UInt32, max a b = if a ≤ b then b else a := fun _ _ => rfl
  .of_max_le_iff
    (by
      intro a b c
      rw [hmax]
      split
      · next h => exact ⟨fun hbc => ⟨UInt32.le_trans h hbc, hbc⟩, And.right⟩
      · next h =>
          have hba : b ≤ a := UInt32.le_of_lt (UInt32.not_le.mp h)
          exact ⟨fun hac => ⟨hac, UInt32.le_trans hba hac⟩, And.left⟩)
    (by
      intro a b
      rw [hmax]
      split
      · exact .inr rfl
      · exact .inl rfl)

/-- A mode takes a value from times: the least, the greatest or the last one, or the largest
lane value if there are none. -/
inductive Takes : SelectMode → List UInt32 → UInt32 → Prop where
  | none (mode : SelectMode) : Takes mode [] never
  | least {values : List UInt32} {value : UInt32} (hmem : value ∈ values)
    (hle : ∀ other ∈ values, value ≤ other) : Takes .min values value
  | greatest {values : List UInt32} {value : UInt32} (hmem : value ∈ values)
    (hle : ∀ other ∈ values, other ≤ value) : Takes .max values value
  | last {values : List UInt32} {value : UInt32} (hlast : values.getLast? = some value) :
    Takes .first values value

theorem takes_reduce (mode : SelectMode) (values : List UInt32) :
    Takes mode values (reduce mode values) := by
  cases values with
  | nil => cases mode <;> exact .none _
  | cons value rest =>
      have hne : value :: rest ≠ [] := List.cons_ne_nil _ _
      cases mode with
      | min =>
          have hmin := List.min?_eq_some_min hne
          obtain ⟨hmem, hle⟩ := List.min?_eq_some_iff.mp hmin
          rw [reduce, hmin]
          exact .least hmem hle
      | max =>
          have hmax := List.max?_eq_some_max hne
          obtain ⟨hmem, hle⟩ := List.max?_eq_some_iff.mp hmax
          rw [reduce, hmax]
          exact .greatest hmem hle
      | first =>
          have hlast := List.getLast?_eq_some_getLast hne
          rw [reduce, hlast]
          exact .last hlast

namespace Takes

variable {mode : SelectMode} {values values' : List UInt32} {value value' : UInt32}

/-- A mode takes one value only. -/
theorem unique (h : Takes mode values value) (h' : Takes mode values value') :
    value = value' := by
  cases h with
  | none =>
      cases h' with
      | none => rfl
      | least hmem => cases hmem
      | greatest hmem => cases hmem
      | last hlast => cases hlast
  | least hmem hle =>
      cases h' with
      | none => cases hmem
      | least hmem' hle' => exact UInt32.le_antisymm (hle _ hmem') (hle' _ hmem)
  | greatest hmem hle =>
      cases h' with
      | none => cases hmem
      | greatest hmem' hle' => exact UInt32.le_antisymm (hle' _ hmem) (hle _ hmem')
  | last hlast =>
      cases h' with
      | none => cases hlast
      | last hlast' => exact Option.some_inj.mp (hlast.symm.trans hlast')

/-- The least and the greatest value do not depend on the order. -/
theorem perm (h : Takes mode values value) (hperm : values.Perm values')
    (hmode : mode ≠ .first) : Takes mode values' value := by
  cases h with
  | none =>
      rw [hperm.nil_eq.symm]
      exact .none mode
  | least hmem hle =>
      exact .least (hperm.mem_iff.mp hmem) fun other hother => hle _ (hperm.mem_iff.mpr hother)
  | greatest hmem hle =>
      exact .greatest (hperm.mem_iff.mp hmem) fun other hother =>
        hle _ (hperm.mem_iff.mpr hother)
  | last => exact absurd rfl hmode

end Takes

private theorem reduce_perm {mode : SelectMode} {values values' : List UInt32}
    (hperm : values.Perm values') (hmode : mode ≠ .first) :
    reduce mode values = reduce mode values' :=
  ((takes_reduce mode values).perm hperm hmode).unique (takes_reduce mode values')

/-! ## Selecting in a lane -/

private theorem selectLane_perm {logic : SelectLogic} {mode : SelectMode}
    {values values' : List UInt32} (hperm : values.Perm values') (hmode : mode ≠ .first) :
    selectLane logic mode values = selectLane logic mode values' := by
  cases logic with
  | every => rw [selectLane, selectLane, hperm.contains_eq, reduce_perm hperm hmode]
  | any => rw [selectLane, selectLane, reduce_perm (hperm.filter _) hmode]

/-- The least candidate is the same with and without the largest lane value among them. -/
theorem takes_selectLane_any_min (values : List UInt32) :
    Takes .min values (selectLane .any .min values) := by
  have htakes := takes_reduce .min (values.filter (· != never))
  rw [selectLane]
  generalize hkept : values.filter (· != never) = kept at htakes ⊢
  generalize reduce .min kept = value at htakes ⊢
  cases htakes with
  | none =>
      -- no candidate is left, so all of them are the largest lane value
      cases values with
      | nil => exact .none _
      | cons first rest =>
          have hall : ∀ other ∈ first :: rest, other = never := by
            intro other hother
            have hdropped := List.filter_eq_nil_iff.mp hkept other hother
            simpa using hdropped
          refine .least ?_ fun other hother => ?_
          · rw [← hall first List.mem_cons_self]
            exact List.mem_cons_self
          · rw [hall other hother]
            exact UInt32.le_refl never
  | least hmem hle =>
      subst hkept
      refine .least (List.mem_of_mem_filter hmem) fun other hother => ?_
      by_cases hother' : other = never
      · rw [hother']
        exact le_never value
      · exact hle other (List.mem_filter.mpr ⟨hother, by simpa using hother'⟩)

/-- A greatest candidate that is the largest lane value is one that excludes all others. -/
theorem takes_selectLane_every_max (values : List UInt32) :
    Takes .max values (selectLane .every .max values) := by
  rw [selectLane]
  split
  · next hcontains =>
      exact .greatest (List.contains_iff_mem.mp hcontains) fun other _ => le_never other
  · exact takes_reduce .max values

/-! ## Selecting among reports -/

/-- A lane of a selection is the selection in that lane. -/
theorem lane_select (reports : List Word) (threshold : Word) (logic : SelectLogic)
    (mode : SelectMode) {i : Nat} (hi : i < 8) :
    lane (select reports threshold logic mode) i
      = selectLane logic mode (reports.map fun report => capped threshold (lane report i)) := by
  simp only [select, withinThreshold_eq_capped]
  refine lane_ofLanes (by simp) ?_
  simp [hi]

private theorem select_perm {reports reports' : List Word} (hperm : reports.Perm reports')
    (threshold : Word) (logic : SelectLogic) {mode : SelectMode} (hmode : mode ≠ .first) :
    select reports threshold logic mode = select reports' threshold logic mode := by
  have hlane : ∀ i, selectLane logic mode
        (reports.map fun report => withinThreshold threshold (lane report i))
      = selectLane logic mode
        (reports'.map fun report => withinThreshold threshold (lane report i)) :=
    fun i => selectLane_perm (hperm.map _) hmode
  simp only [select, hlane]

/-- Among the times that count, a selection takes what its mode says. -/
theorem takes_select_any (reports : List Word) (threshold : Word) (mode : SelectMode) {i : Nat}
    (hi : i < 8) :
    Takes mode (eligible threshold i reports) (lane (select reports threshold .any mode) i) := by
  have hkept := filter_capped threshold (reports.map fun report => lane report i)
  rw [List.map_map] at hkept
  rw [lane_select reports threshold .any mode hi, selectLane, eligible, ← hkept]
  exact takes_reduce mode _

private theorem takes_select_every {reports : List Word} (mode : SelectMode) {i : Nat} (hi : i < 8)
    (hall : ∀ report ∈ reports, Eligible threshold (lane report i)) :
    Takes mode (eligible threshold i reports) (lane (select reports threshold .every mode) i) := by
  have hcapped : (reports.map fun report => capped threshold (lane report i))
      = eligible threshold i reports := by
    have heligible : eligible threshold i reports = reports.map fun report => lane report i :=
      List.filter_eq_self.mpr fun value hvalue => by
        obtain ⟨report, hreport, rfl⟩ := List.mem_map.mp hvalue
        simpa using hall report hreport
    rw [heligible]
    exact List.map_congr_left fun report hreport => capped_of_eligible (hall report hreport)
  have hnever : ¬ (eligible threshold i reports).contains never = true := by
    rw [List.contains_iff_mem, eligible, List.mem_filter]
    simp [Eligible]
  rw [lane_select reports threshold .every mode hi, hcapped, selectLane, if_neg hnever]
  exact takes_reduce mode _

private theorem lane_select_every_eq_never {reports : List Word} (mode : SelectMode) {i : Nat}
    (hi : i < 8) (h : reports = [] ∨ ∃ report ∈ reports, ¬ Eligible threshold (lane report i)) :
    lane (select reports threshold .every mode) i = never := by
  rw [lane_select reports threshold .every mode hi, selectLane]
  rcases h with rfl | ⟨report, hreport, hnot⟩
  · exact (takes_reduce mode []).unique (.none mode)
  · have hnever : (reports.map fun report => capped threshold (lane report i)).contains never
        = true :=
      List.contains_iff_mem.mpr
        (List.mem_map.mpr ⟨report, hreport, capped_eq_never_iff.mpr hnot⟩)
    rw [if_pos hnever]

/-- Selecting goes lane by lane.  When every report has to count in a lane, one that does not
leaves the largest lane value there, and so does a lack of reports; otherwise, and whenever any
report may count, the lane holds what the mode takes from the times that count.  For the least
and the greatest value the order of the reports does not matter; the least of any and the
greatest of every time is the least and the greatest of the reports with the times past the
threshold put to the largest lane value. -/
theorem selection_is_lanewise (reports : List Word) (threshold : Word) (mode : SelectMode) :
    (∀ i < 8,
      (reports = [] ∨ (∃ report ∈ reports, ¬ Eligible threshold (lane report i)) →
        lane (select reports threshold .every mode) i = never) ∧
      ((∀ report ∈ reports, Eligible threshold (lane report i)) →
        Takes mode (eligible threshold i reports)
          (lane (select reports threshold .every mode) i)) ∧
      Takes mode (eligible threshold i reports) (lane (select reports threshold .any mode) i)) ∧
    (∀ reports' logic, reports.Perm reports' → mode ≠ .first →
      select reports threshold logic mode = select reports' threshold logic mode) ∧
    ∀ i < 8,
      Takes .min (reports.map fun report => capped threshold (lane report i))
        (lane (select reports threshold .any .min) i) ∧
      Takes .max (reports.map fun report => capped threshold (lane report i))
        (lane (select reports threshold .every .max) i) := by
  refine ⟨fun i hi => ⟨?_, ?_, ?_⟩, fun reports' logic hperm hmode => ?_, fun i hi => ⟨?_, ?_⟩⟩
  · exact lane_select_every_eq_never mode hi
  · exact takes_select_every mode hi
  · exact takes_select_any reports threshold mode hi
  · exact select_perm hperm threshold logic hmode
  · rw [lane_select reports threshold .any .min hi]
    exact takes_selectLane_any_min _
  · rw [lane_select reports threshold .every .max hi]
    exact takes_selectLane_every_max _

/-- Two reports.  In lane 0 both count, in lane 1 one was never held, and in lane 2 one is past
the threshold. -/
theorem selection_is_lanewise_of_two :
    let a := ofLanes [5, never, 50, 9, 1, 1, 1, 1]
    let b := ofLanes [3, 7, 60, 9, 2, 2, 2, 2]
    let threshold := Word.ofSmall 55
    (∀ report ∈ [a, b], Eligible threshold (lane report 0)) ∧
      (¬ Eligible threshold (lane a 1) ∧ ¬ Eligible threshold (lane b 2)) ∧
      Takes .min [5, 3] (lane (select [a, b] threshold .every .min) 0) ∧
      lane (select [a, b] threshold .every .min) 1 = never ∧
      Takes .min [50] (lane (select [a, b] threshold .any .min) 2) ∧
      select [a, b] threshold .any .min = select [b, a] threshold .any .min ∧
      Takes .max [50, never] (lane (select [a, b] threshold .every .max) 2) := by
  intro a b threshold
  have hall : ∀ report ∈ [a, b], Eligible threshold (lane report 0) := by decide +kernel
  have ha : ¬ Eligible threshold (lane a 1) := by decide +kernel
  have hb : ¬ Eligible threshold (lane b 2) := by decide +kernel
  have hfirst : eligible threshold 0 [a, b] = [5, 3] := by decide +kernel
  have hthird : eligible threshold 2 [a, b] = [50] := by decide +kernel
  have hcapped : [a, b].map (fun report => capped threshold (lane report 2)) = [50, never] := by
    decide +kernel
  obtain ⟨hlanes, hperm, hextreme⟩ := selection_is_lanewise [a, b] threshold .min
  refine ⟨hall, ⟨ha, hb⟩, ?_, ?_, ?_, ?_, ?_⟩
  · rw [← hfirst]
    exact (hlanes 0 (by decide)).2.1 hall
  · exact (hlanes 1 (by decide)).1 (.inr ⟨a, List.mem_cons_self, ha⟩)
  · rw [← hthird]
    exact (hlanes 2 (by decide)).2.2
  · exact hperm [b, a] .any (List.Perm.swap b a []) (by decide)
  · rw [← hcapped]
    exact (hextreme 2 (by decide)).2

end WordMachine.Report
