import Mathlib.Data.List.Flatten
import Mathlib.Data.List.Nodup
import Mathlib.Data.List.Perm.Subperm
import WordMachine.Proofs.Evaluation.Calls
import WordMachine.Proofs.Evaluation.Peaks

/-!
# Unrolled programs

Code has no branches, so the order in which an evaluation goes through the pairs of a program
can be written down before it begins: after a `ZIPMAP` come the pairs of its source, once for
each lane.  An evaluation goes through this list from the front, and a fault only makes it stop
early.

No pair adds more than one value to the stack.  So at no moment are there more values than pairs
that were evaluated, each of them counted as often as it was evaluated.  The pairs of a program
are as many as those of its unrolled form only if no `ZIPMAP` repeats any of them.

## Main definitions

* `unroll`, `Program.unrolled` — the pairs that an evaluation goes through
* `Config.trace`, `Config.ahead` — the pairs that were evaluated, and those that come next
* `Program.Unrepeated` — programs that evaluate no pair twice

## Main results

* `Config.height_iterate_le` — there are at most as many values as pairs that were evaluated
* `Config.trace_prefix` — an evaluation goes through the unrolled program
* `Program.Unrepeated.length_unrolled_le` — code that is not repeated
-/

namespace WordMachine

/-! ## The order of the pairs -/

/-- A pair, and after a `ZIPMAP` what it evaluates for each of its lanes. -/
def unrollPair (inner : Nat → List (UInt8 × UInt8)) (pair : UInt8 × UInt8) :
    List (UInt8 × UInt8) :=
  if pair.1 = Instruction.zipmap.opcode then
    pair :: (List.replicate (Zip.decode pair.2).lanes
      (inner (Zip.decode pair.2).source.toNat)).flatten
  else [pair]

/-- The pairs that the evaluation of a source goes through, with `levels` levels of nesting, its
own among them. -/
def unroll (sources : List Source) : (levels : Nat) → (index : Nat) → List (UInt8 × UInt8)
  | 0, _ => []
  | levels + 1, index =>
    (pairs (sources.getD index [])).flatMap (unrollPair (unroll sources levels))

/-- The pairs that a run goes through. -/
def Program.unrolled (p : Program) (entry : Nat) : List (UInt8 × UInt8) :=
  unroll p.sources (maxDepth + 1) entry

/-- The pairs that tasks go through, while `depth` frames are open. -/
def Task.aheadOf (sources : List Source) : (depth : Nat) → List Task → List (UInt8 × UInt8)
  | _, [] => []
  | depth, .source index :: rest =>
    unroll sources (maxDepth - depth + 1) index ++ aheadOf sources depth rest
  | depth, .pairs code :: rest =>
    code.flatMap (unrollPair (unroll sources (maxDepth - depth))) ++ aheadOf sources depth rest
  | depth, .lanes zip _ left :: rest =>
    (List.replicate left.length
      (unroll sources (maxDepth - (depth + 1) + 1) zip.source.toNat)).flatten
      ++ aheadOf sources depth rest
  | depth, .close :: rest => aheadOf sources (depth - 1) rest

namespace Config

/-- The pair that the next step evaluates. -/
def next? (c : Config) : Option (UInt8 × UInt8) :=
  match c.tasks, c.result with
  | .pairs (pair :: _) :: _, .ok () => some pair
  | _, _ => none

/-- The pairs that the first `n` steps evaluate. -/
def trace (env : Environment) : (n : Nat) → Config → List (UInt8 × UInt8)
  | 0, _ => []
  | n + 1, c => c.next?.toList ++ trace env n (c.step Table.standard env)

/-- The pairs that are evaluated from now on, if no fault comes. -/
def ahead (c : Config) : List (UInt8 × UInt8) :=
  match c.result with
  | .ok _ => Task.aheadOf c.machine.sources c.machine.depth c.tasks
  | .error _ => []

end Config

/-! ## Heights -/

/-- An instruction leaves at most one value more than it takes. -/
theorem Instruction.leaves_le {instruction : Instruction} {operand : UInt8} {e : Nat × Nat}
    (h : instruction.effect? operand = some e) : e.2 ≤ e.1 + 1 := by
  cases instruction with
  | constant | stack | zipmap | context | storage => cases h
  | debug | any | every | saturatingAdd | saturatingMul | saturatingSub | add | div | exp | max
  | min | mod | mul | sub | selectLte | updateTimesForTierRange =>
      obtain ⟨v, -, rfl⟩ := Option.map_eq_some_iff.mp h
      simp
  | erc1155BalanceOfBatch =>
      cases h
      show operand.toNat ≤ 1 + 2 * operand.toNat + 1
      omega
  | _ =>
      cases h
      simp

/-- The height that is foretold for a pair without inner evaluations is at most one higher. -/
theorem Outline.executed_le {s : Outline} {instruction : Instruction} {operand : UInt8}
    {height : Nat} (h : s.executed none instruction operand = some height) :
    height ≤ s.height + 1 := by
  unfold executed at h
  split at h
  · exact Nat.le_of_eq (fetched_eq_some h)
  · exact Nat.le_of_eq (copied_eq_some h)
  · cases h
  · obtain ⟨e, he, hheight⟩ := Option.bind_eq_some_iff.mp h
    obtain ⟨htakes, hsome⟩ := Option.ite_none_right_eq_some.mp hheight
    have hleaves := Instruction.leaves_le he
    have hsame : s.height - e.1 + e.2 = height := Option.some.inj hsome
    omega

namespace Config

variable (env : Environment)

/-- A pair adds at most one value. -/
theorem height_pair_le (opcode operand : UInt8) (m : Machine) :
    (Evaluation.pair Table.standard env none opcode operand m).machine.height ≤ m.height + 1 := by
  cases hresult : (Evaluation.pair Table.standard env none opcode operand m).result with
  | error e =>
      exact Nat.le_succ_of_le (Evaluation.settles_pair env opcode operand m e hresult)
  | ok v =>
      have hagrees := (Evaluation.reshapes_pair env .none opcode operand).agrees m
      cases hforetold : (Instruction.ofOpcode? opcode).bind fun i =>
          m.outline.executed none i operand with
      | none =>
          rw [hforetold] at hagrees
          obtain ⟨e, herror⟩ := hagrees
          rw [hresult] at herror
          cases herror
      | some height =>
          rw [hforetold] at hagrees
          obtain ⟨instruction, -, hexecuted⟩ := Option.bind_eq_some_iff.mp hforetold
          have hle : height ≤ m.height + 1 := Outline.executed_le hexecuted
          rcases hagrees with ⟨-, hheight⟩ | ⟨e, herror, -⟩
          · exact Nat.le_trans (Nat.le_of_eq hheight) hle
          · rw [hresult] at herror
            cases herror

/-- A step adds at most one value, and none if it evaluates no pair. -/
theorem height_step_le (c : Config) :
    (c.step Table.standard env).machine.height
      ≤ c.machine.height + c.next?.toList.length := by
  obtain ⟨tasks, result, m⟩ := c
  cases tasks with
  | nil => exact Nat.le_add_right _ _
  | cons task rest =>
      cases task with
      | close =>
          rw [step_close]
          exact Nat.le_add_right_of_le (Nat.le_of_eq (Action.height_closeFrame m))
      | source index =>
          cases result with
          | error e => exact Nat.le_refl _
          | ok v =>
              rw [step_source]
              split
              · exact Nat.le_refl _
              · split
                · exact Nat.le_refl _
                · exact Nat.le_refl _
      | lanes zip values lanes =>
          cases result with
          | error e => exact Nat.le_refl _
          | ok v => cases lanes <;> exact Nat.le_refl _
      | pairs code =>
          cases result with
          | error e => exact Nat.le_add_right _ _
          | ok v =>
              cases code with
              | nil => exact Nat.le_refl _
              | cons head code =>
                  obtain ⟨opcode, operand⟩ := head
                  show _ ≤ m.height + 1
                  by_cases hzipmap : (Table.standard.route opcode operand).isZipmap
                  · cases htake : (Action.takeZip operand m).result with
                    | error e =>
                        rw [step_zipmap_error hzipmap htake, Action.takeZip_of_error htake]
                        exact Nat.le_succ _
                    | ok values =>
                        obtain ⟨stack, -, hstack, hmachine⟩ := Action.takeZip_of_ok htake
                        rw [step_zipmap_ok hzipmap htake, hmachine]
                        have hheight : m.height = stack.length + values.length := by
                          rw [Machine.height, hstack, List.length_append]
                        show stack.length ≤ m.height + 1
                        omega
                  · rw [step_pair hzipmap]
                    exact height_pair_le env opcode operand m

/-- There are at most as many values more as pairs that were evaluated. -/
theorem height_iterate_le (n : Nat) (c : Config) :
    ((step Table.standard env)^[n] c).machine.height
      ≤ c.machine.height + (c.trace env n).length := by
  induction n generalizing c with
  | zero => exact Nat.le_refl _
  | succ n ih =>
      rw [Function.iterate_succ_apply, trace, List.length_append]
      have hstep := height_step_le env c
      have hrest := ih (c.step Table.standard env)
      omega

/-! ## The unrolled program -/

private theorem ahead_of_ok {c : Config} {v : Unit} (h : c.result = .ok v) :
    c.ahead = Task.aheadOf c.machine.sources c.machine.depth c.tasks := by
  simp only [ahead, h]

private theorem ahead_of_error {c : Config} {fault : Fault} (h : c.result = .error fault) :
    c.ahead = [] := by
  simp only [ahead, h]

/-- A pair that is not unrolled is ahead of the pairs after it. -/
theorem aheadOf_pairs (sources : List Source) (depth : Nat) (pair : UInt8 × UInt8)
    (code : List (UInt8 × UInt8)) (rest : List Task) :
    Task.aheadOf sources depth (.pairs (pair :: code) :: rest)
      = unrollPair (unroll sources (maxDepth - depth)) pair
        ++ Task.aheadOf sources depth (.pairs code :: rest) := by
  simp only [Task.aheadOf, List.flatMap_cons, List.append_assoc]

/-- A pair is the first one of what it is unrolled to. -/
theorem unrollPair_eq_cons (inner : Nat → List (UInt8 × UInt8)) (pair : UInt8 × UInt8) :
    ∃ more, unrollPair inner pair = pair :: more := by
  unfold unrollPair
  split
  · exact ⟨_, rfl⟩
  · exact ⟨[], rfl⟩

/-- A pair is the first one ahead.  After it comes what it is unrolled to, unless it fails. -/
theorem step_pairs_prefix_ahead (pair : UInt8 × UInt8) (code : List (UInt8 × UInt8))
    (rest : List Task) (m : Machine) :
    pair :: (step Table.standard env ⟨.pairs (pair :: code) :: rest, .ok (), m⟩).ahead
      <+: Config.ahead ⟨.pairs (pair :: code) :: rest, .ok (), m⟩ := by
  obtain ⟨opcode, operand⟩ := pair
  show _ <+: Task.aheadOf m.sources m.depth (.pairs ((opcode, operand) :: code) :: rest)
  rw [aheadOf_pairs]
  cases hresult : (step Table.standard env
      ⟨.pairs ((opcode, operand) :: code) :: rest, .ok (), m⟩).result with
  | error e =>
      obtain ⟨more, hmore⟩ := unrollPair_eq_cons (unroll m.sources (maxDepth - m.depth))
        (opcode, operand)
      rw [ahead_of_error hresult, hmore]
      exact ⟨more ++ _, rfl⟩
  | ok v =>
      by_cases hzipmap : (Table.standard.route opcode operand).isZipmap
      · cases htake : (Action.takeZip operand m).result with
        | error e =>
            rw [step_zipmap_error hzipmap htake] at hresult
            cases hresult
        | ok values =>
            obtain ⟨stack, -, hstack, hmachine⟩ := Action.takeZip_of_ok htake
            have hdepth : maxDepth - m.depth = maxDepth - (m.depth + 1) + 1 := by
              have hlt := Action.depth_lt_of_takeZip_ok htake
              omega
            rw [step_zipmap_ok hzipmap htake, hmachine]
            show (opcode, operand) :: Task.aheadOf m.sources m.depth
              (.lanes (Zip.decode operand) values (List.range (Zip.decode operand).lanes)
                :: .pairs code :: rest) <+: _
            have hlanes : Task.aheadOf m.sources m.depth
                (.lanes (Zip.decode operand) values (List.range (Zip.decode operand).lanes)
                  :: .pairs code :: rest)
                = (List.replicate (Zip.decode operand).lanes
                    (unroll m.sources (maxDepth - m.depth)
                      (Zip.decode operand).source.toNat)).flatten
                  ++ Task.aheadOf m.sources m.depth (.pairs code :: rest) := by
              rw [hdepth]
              simp only [Task.aheadOf, List.length_range]
            rw [hlanes, unrollPair, if_pos (isZipmap_standard_iff.mp hzipmap)]
            exact List.prefix_rfl
      · have hkeeps := Evaluation.keepsRest_pair_standard env opcode operand m
        have hopcode : opcode ≠ Instruction.zipmap.opcode := mt isZipmap_standard_iff.mpr hzipmap
        rw [step_pair hzipmap] at hresult ⊢
        have hahead :
            ((Evaluation.pair Table.standard env none opcode operand m).config
              (.pairs code :: rest)).ahead
            = Task.aheadOf m.sources m.depth (.pairs code :: rest) := by
          rw [ahead_of_ok hresult]
          show Task.aheadOf
            (Evaluation.pair Table.standard env none opcode operand m).machine.sources
            (Evaluation.pair Table.standard env none opcode operand m).machine.depth _ = _
          rw [hkeeps]
          rfl
        rw [hahead, unrollPair, if_neg hopcode]
        exact List.prefix_rfl

/-- A step evaluates the first pair that is ahead, or none. -/
theorem step_prefix_ahead (c : Config) :
    c.next?.toList ++ (c.step Table.standard env).ahead <+: c.ahead := by
  obtain ⟨tasks, result, m⟩ := c
  cases result with
  | error e =>
      have hnext : next? ⟨tasks, .error e, m⟩ = none := by
        unfold next?
        split
        · next h => cases h
        · rfl
      rw [hnext, ahead_of_error (result_step_of_error rfl)]
      exact List.nil_prefix
  | ok v =>
      cases tasks with
      | nil => exact List.prefix_rfl
      | cons task rest =>
          cases task with
          | close =>
              have hsources : m.closeFrame.sources = m.sources :=
                Machine.stableView_sources.frame m m [] rfl
              rw [step_close]
              show Task.aheadOf m.closeFrame.sources m.closeFrame.depth rest <+:
                Task.aheadOf m.sources (m.depth - 1) rest
              exact ⟨[], by rw [List.append_nil, hsources, depth_closeFrame]⟩
          | source index =>
              rw [step_source]
              split
              · exact List.nil_prefix
              · next code hcode =>
                  split
                  · have hget : m.sources.getD index [] = code := by simp [hcode]
                    show Task.aheadOf m.sources m.depth (.pairs (pairs code) :: rest) <+:
                      Task.aheadOf m.sources m.depth (.source index :: rest)
                    simp only [Task.aheadOf, unroll, hget]
                    exact List.prefix_rfl
                  · exact List.nil_prefix
          | lanes zip values lanes =>
              cases lanes with
              | nil => exact List.prefix_rfl
              | cons lane more =>
                  show Task.aheadOf m.sources (m.depth + 1)
                    (.source zip.source.toNat :: .close :: .lanes zip values more :: rest) <+:
                      Task.aheadOf m.sources m.depth (.lanes zip values (lane :: more) :: rest)
                  simp only [Task.aheadOf, Nat.add_sub_cancel, List.length_cons,
                    List.replicate_succ, List.flatten_cons, List.append_assoc]
                  exact List.prefix_rfl
          | pairs code =>
              cases code with
              | nil => exact List.prefix_rfl
              | cons pair code => exact step_pairs_prefix_ahead env pair code rest m

/-- Steps go through the pairs that are ahead. -/
theorem trace_prefix (n : Nat) (c : Config) : c.trace env n <+: c.ahead := by
  induction n generalizing c with
  | zero => exact List.nil_prefix
  | succ n ih =>
      rw [trace]
      refine List.IsPrefix.trans ?_ (step_prefix_ahead env c)
      rw [List.prefix_append_right_inj]
      exact ih _

theorem ahead_start (p : Program) (entry : Nat) :
    (start entry (Machine.ofProgram p)).ahead = p.unrolled entry := by
  show Task.aheadOf p.sources 0 [.source entry] = _
  simp [Task.aheadOf, Program.unrolled]

end Config

/-! ## Code that is not repeated -/

namespace Program

/-- No pair is evaluated twice: every `ZIPMAP` has one lane, and no two of them name the same
source, or the entry. -/
structure Unrepeated (p : Program) (entry : Nat) : Prop where
  lanes : ∀ pair ∈ p.sources.flatMap pairs, pair.1 = Instruction.zipmap.opcode →
    (Zip.decode pair.2).lanes = 1
  targets : p.zipTargets.Nodup
  entry : entry ∉ p.zipTargets

/-- The pair repeats nothing: it is no `ZIPMAP`, or one with a single lane. -/
def hasOneLane (pair : UInt8 × UInt8) : Bool :=
  pair.1 != Instruction.zipmap.opcode || (Zip.decode pair.2).lanes == 1

private theorem hasOneLane_iff {pair : UInt8 × UInt8} :
    hasOneLane pair ↔
      (pair.1 = Instruction.zipmap.opcode → (Zip.decode pair.2).lanes = 1) := by
  simp only [hasOneLane, Bool.or_eq_true, bne_iff_ne, beq_iff_eq, ne_eq,
    Decidable.imp_iff_not_or]

instance (p : Program) (entry : Nat) : Decidable (p.Unrepeated entry) :=
  decidable_of_iff
    ((p.sources.flatMap pairs).all hasOneLane ∧ p.zipTargets.Nodup ∧ entry ∉ p.zipTargets)
    ⟨fun h => ⟨fun pair hpair => hasOneLane_iff.mp (List.all_eq_true.mp h.1 pair hpair),
        h.2.1, h.2.2⟩,
      fun h => ⟨List.all_eq_true.mpr fun pair hpair => hasOneLane_iff.mpr (h.lanes pair hpair),
        h.targets, h.entry⟩⟩

/-- The pairs of a source. -/
def pairsOf (p : Program) (i : Nat) : List (UInt8 × UInt8) := pairs (p.sources.getD i [])

/-- The sources that a source names. -/
def targetsOf (p : Program) (i : Nat) : List Nat := (p.pairsOf i).filterMap zipTarget?

variable {p : Program} {entry : Nat}

private theorem pairsOf_of_le {i : Nat} (h : p.sources.length ≤ i) : p.pairsOf i = [] := by
  rw [pairsOf, List.getD_eq_getElem?_getD, List.getElem?_eq_none h]
  rfl

/-- The pairs of all sources, source by source. -/
theorem flatMap_pairsOf (p : Program) :
    (List.range p.sources.length).flatMap p.pairsOf = p.sources.flatMap pairs := by
  have hsources : (List.range p.sources.length).map (fun i => p.sources.getD i [])
      = p.sources := by
    apply List.ext_getElem
    · simp
    · intro i h h'
      simp [h']
  conv => rhs; rw [← hsources, List.flatMap_map]
  rfl

/-- The sources that are named, source by source. -/
theorem flatMap_targetsOf (p : Program) :
    (List.range p.sources.length).flatMap p.targetsOf = p.zipTargets := by
  have htargets : p.zipTargets = (p.sources.flatMap pairs).filterMap zipTarget? := rfl
  rw [htargets, ← flatMap_pairsOf, List.filterMap_flatMap]
  rfl

/-- Sources that are different have together at most the pairs of all. -/
theorem length_flatMap_pairsOf_le {visited : List Nat} (h : visited.Nodup) :
    (visited.flatMap p.pairsOf).length ≤ (p.sources.flatMap pairs).length := by
  have hexisting : visited.flatMap p.pairsOf
      = (visited.filter (· < p.sources.length)).flatMap p.pairsOf := by
    clear h
    induction visited with
    | nil => rfl
    | cons i rest ih =>
        rw [List.flatMap_cons, ih, List.filter_cons]
        split
        · rw [List.flatMap_cons]
        · next hi => rw [pairsOf_of_le (by simpa using hi), List.nil_append]
  have hsubset : visited.filter (· < p.sources.length) ⊆ List.range p.sources.length := by
    intro i hi
    simpa using (List.mem_filter.mp hi).2
  obtain ⟨chosen, hperm, hsublist⟩ := (h.filter _).subperm hsubset
  rw [hexisting, ← flatMap_pairsOf, ← (hperm.flatMap_right p.pairsOf).length_eq]
  exact (hsublist.flatMap p.pairsOf).length_le

private theorem targetsOf_of_le {i : Nat} (h : p.sources.length ≤ i) : p.targetsOf i = [] := by
  rw [targetsOf, pairsOf_of_le h]
  rfl

private theorem lt_of_mem_targetsOf {i t : Nat} (h : t ∈ p.targetsOf i) : i < p.sources.length := by
  rw [← Nat.not_le]
  intro hle
  rw [targetsOf_of_le hle] at h
  cases h

private theorem mem_zipTargets_of_mem_targetsOf {i t : Nat} (h : t ∈ p.targetsOf i) :
    t ∈ p.zipTargets := by
  rw [← flatMap_targetsOf]
  exact List.mem_flatMap.mpr ⟨i, List.mem_range.mpr (lt_of_mem_targetsOf h), h⟩

/-- With one lane for each `ZIPMAP`, unrolled code is the code and what its targets are unrolled
to. -/
theorem length_flatMap_unrollPair {inner : Nat → List (UInt8 × UInt8)}
    {code : List (UInt8 × UInt8)}
    (hlanes : ∀ pair ∈ code, pair.1 = Instruction.zipmap.opcode → (Zip.decode pair.2).lanes = 1) :
    (code.flatMap (unrollPair inner)).length
      = code.length + ((code.filterMap zipTarget?).flatMap inner).length := by
  induction code with
  | nil => rfl
  | cons pair code ih =>
      obtain ⟨hpair, hcode⟩ := List.forall_mem_cons.mp hlanes
      have hrest := ih hcode
      by_cases hzipmap : pair.1 = Instruction.zipmap.opcode
      · simp [unrollPair, zipTarget?, hzipmap, hpair hzipmap, hrest]
        omega
      · simp [unrollPair, zipTarget?, hzipmap, hrest]
        omega

namespace Unrepeated

private theorem nodup_targetsOf (h : p.Unrepeated entry) (i : Nat) : (p.targetsOf i).Nodup := by
  have htargets := h.targets
  rw [← flatMap_targetsOf, List.nodup_flatMap] at htargets
  by_cases hi : i < p.sources.length
  · exact htargets.1 i (List.mem_range.mpr hi)
  · rw [targetsOf_of_le (Nat.not_lt.mp hi)]
    exact List.nodup_nil

/-- No two sources name the same one. -/
theorem disjoint_targetsOf (h : p.Unrepeated entry) {i j : Nat} (hij : i < j) :
    List.Disjoint (p.targetsOf i) (p.targetsOf j) := by
  have htargets := h.targets
  rw [← flatMap_targetsOf, List.nodup_flatMap] at htargets
  intro t hi hj
  have hpairwise := List.pairwise_iff_getElem.mp htargets.2 i j
    (by simpa using lt_of_mem_targetsOf hi) (by simpa using lt_of_mem_targetsOf hj) hij
  simp only [List.getElem_range] at hpairwise
  exact hpairwise hi hj

private theorem eq_of_mem_targetsOf (h : p.Unrepeated entry) {i j t : Nat} (hi : t ∈ p.targetsOf i)
    (hj : t ∈ p.targetsOf j) : i = j := by
  rcases Nat.lt_trichotomy i j with hij | rfl | hji
  · exact (h.disjoint_targetsOf hij hi hj).elim
  · rfl
  · exact (h.disjoint_targetsOf hji hj hi).elim

/-- Different sources name different ones. -/
theorem nodup_flatMap_targetsOf (h : p.Unrepeated entry) {level : List Nat} (hlevel : level.Nodup) :
    (level.flatMap p.targetsOf).Nodup := by
  rw [List.nodup_flatMap]
  refine ⟨fun i _ => h.nodup_targetsOf i, hlevel.imp ?_⟩
  intro i j hij t hi hj
  exact hij (h.eq_of_mem_targetsOf hi hj)

private theorem length_unroll (h : p.Unrepeated entry) (levels i : Nat) :
    (unroll p.sources (levels + 1) i).length
      = (p.pairsOf i).length + ((p.targetsOf i).flatMap (unroll p.sources levels)).length := by
  apply length_flatMap_unrollPair
  intro pair hpair
  by_cases hi : i < p.sources.length
  · refine h.lanes pair ?_
    rw [← flatMap_pairsOf]
    exact List.mem_flatMap.mpr ⟨i, List.mem_range.mpr hi, hpair⟩
  · have hnone : p.pairsOf i = [] := pairsOf_of_le (Nat.not_lt.mp hi)
    have hmem : pair ∈ p.pairsOf i := hpair
    rw [hnone] at hmem
    cases hmem

/-- The same for the sources of a level. -/
theorem length_flatMap_unroll (h : p.Unrepeated entry) (levels : Nat) (level : List Nat) :
    (level.flatMap (unroll p.sources (levels + 1))).length
      = (level.flatMap p.pairsOf).length
        + ((level.flatMap p.targetsOf).flatMap (unroll p.sources levels)).length := by
  induction level with
  | nil => rfl
  | cons i rest ih =>
      simp only [List.flatMap_cons, List.length_append, List.flatMap_append, h.length_unroll, ih]
      omega

/-- Level by level, the sources that are entered are different ones.  Every source that was
entered is the entry, or is named by one that was entered a level before, and by no other. -/
theorem length_levels_le (h : p.Unrepeated entry) (levels : Nat) (visited level : List Nat)
    (hnodup : (visited ++ level).Nodup)
    (hnamed : ∀ i ∈ visited ++ level, i = entry ∨ ∃ j ∈ visited, i ∈ p.targetsOf j) :
    (visited.flatMap p.pairsOf).length + (level.flatMap (unroll p.sources levels)).length
      ≤ (p.sources.flatMap pairs).length := by
  -- the sources of the next level are named by those of this one, so they are new
  induction levels generalizing visited level with
  | zero =>
      have hnone : level.flatMap (unroll p.sources 0) = [] := by simp [unroll]
      rw [hnone]
      exact length_flatMap_pairsOf_le (List.Nodup.of_append_left hnodup)
  | succ levels ih =>
      have hfresh : List.Disjoint (visited ++ level) (level.flatMap p.targetsOf) := by
        intro t ht hnext
        obtain ⟨i, hi, hti⟩ := List.mem_flatMap.mp hnext
        rcases hnamed t ht with rfl | ⟨j, hj, htj⟩
        · exact h.entry (mem_zipTargets_of_mem_targetsOf hti)
        · obtain rfl := h.eq_of_mem_targetsOf hti htj
          exact (List.disjoint_of_nodup_append hnodup) hj hi
      have hnodup' : ((visited ++ level) ++ level.flatMap p.targetsOf).Nodup :=
        hnodup.append (h.nodup_flatMap_targetsOf (List.Nodup.of_append_right hnodup)) hfresh
      have hnamed' : ∀ i ∈ (visited ++ level) ++ level.flatMap p.targetsOf,
          i = entry ∨ ∃ j ∈ visited ++ level, i ∈ p.targetsOf j := by
        intro i hi
        rcases List.mem_append.mp hi with hold | hnew
        · rcases hnamed i hold with rfl | ⟨j, hj, hij⟩
          · exact .inl rfl
          · exact .inr ⟨j, List.mem_append_left _ hj, hij⟩
        · obtain ⟨j, hj, hij⟩ := List.mem_flatMap.mp hnew
          exact .inr ⟨j, List.mem_append_right _ hj, hij⟩
      have hnext := ih _ _ hnodup' hnamed'
      rw [List.flatMap_append, List.length_append] at hnext
      rw [h.length_flatMap_unroll]
      omega

/-- Code that is not repeated is unrolled to at most as many pairs as the program has. -/
theorem length_unrolled_le (h : p.Unrepeated entry) :
    (p.unrolled entry).length ≤ (p.sources.flatMap pairs).length := by
  have hlevels := h.length_levels_le (maxDepth + 1) [] [entry] (by simp) (by simp)
  simpa [unrolled] using hlevels

end Unrepeated

end Program

end WordMachine
