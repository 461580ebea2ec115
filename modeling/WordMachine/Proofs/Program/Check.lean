import WordMachine.Proofs.Evaluation.Calls

/-!
# What the check of a program accepts

The check goes through the sources in order and stops at the first thing it objects to.
Here its verdict is said without that order: a program passes exactly if every source is
whole and every pair is in its place.  Conversely, when the check reports a source that is
cut short, that source is there and is cut short at the offset reported.

## Main definitions

* `Program.Admits` — a pair that is in its place in a source
* `Program.WellFormed` — a program in which everything is in its place

## Main results

* `Program.check_eq_ok_iff` — the check accepts the well-formed programs
* `Program.truncated_of_check_eq_error` — what is known when a source is reported
-/

namespace WordMachine

namespace Program

variable {p : Program} {index : Nat}

/-- A constant past the pool stands only in a source that some `ZIPMAP` names, and a
`ZIPMAP` names a source that exists. -/
structure Admits (p : Program) (index : Nat) (pair : UInt8 × UInt8) : Prop where
  constant : pair.1 = Instruction.constant.opcode →
    Fetch.goesPast pair.2 p.constants.length → index ∈ p.zipTargets
  zipmap : ∀ target, zipTarget? pair = some target → target < p.sources.length

/-- Every source is whole, and every pair is in its place. -/
structure WellFormed (p : Program) : Prop where
  whole : ∀ code ∈ p.sources, isWhole code
  admits : ∀ {i code}, p.sources[i]? = some code → ∀ pair ∈ pairs code, p.Admits i pair

/-- A pair of a well-formed program names a source that exists, if it names one. -/
theorem WellFormed.zipmap_lt (h : p.WellFormed) {code : Source} (hcode : code ∈ p.sources) :
    ∀ pair ∈ pairs code, ∀ target, zipTarget? pair = some target → target < p.sources.length := by
  intro pair hpair
  obtain ⟨i, hi⟩ := List.mem_iff_getElem?.mp hcode
  exact (h.admits hi pair hpair).zipmap

/-- A well-formed program has all the sources that it names. -/
theorem WellFormed.target_lt (h : p.WellFormed) {target : Nat} (htarget : target ∈ p.zipTargets) :
    target < p.sources.length := by
  obtain ⟨i, code, hcode, hmem⟩ := mem_zipTargets_iff.mp htarget
  obtain ⟨pair, hpair, hnames⟩ := List.mem_filterMap.mp hmem
  exact h.zipmap_lt (List.mem_of_getElem? hcode) pair hpair target hnames

/-! ## One pair after the other -/

/-- Two checks in a row accept what both accept. -/
theorem bind_check_eq_ok_iff {first second : Except Fault Unit} :
    (first >>= fun _ => second) = .ok () ↔ first = .ok () ∧ second = .ok () := by
  cases first with
  | error e => simp [bind, Except.bind]
  | ok v => simp [bind, Except.bind]

private theorem checkPair_eq_ok_iff {pair : UInt8 × UInt8} :
    p.checkPair index pair = .ok () ↔ p.Admits index pair := by
  obtain ⟨opcode, operand⟩ := pair
  unfold checkPair
  by_cases hconstant : opcode = Instruction.constant.opcode
  · -- a constant is no `ZIPMAP`
    subst hconstant
    have hnone : zipTarget? (Instruction.constant.opcode, operand) = none := rfl
    dsimp only
    rw [if_pos rfl]
    constructor
    · intro h
      refine ⟨fun _ hpast => ?_, by simp [hnone]⟩
      by_contra hmem
      simp [hpast, hmem] at h
    · intro h
      rw [if_neg]
      simp only [Bool.and_eq_true, Bool.not_eq_true', List.contains_eq_mem,
        decide_eq_false_iff_not, not_and, not_not]
      exact h.constant rfl
  · by_cases hzipmap : opcode = Instruction.zipmap.opcode
    · dsimp only
      rw [if_neg hconstant, if_pos hzipmap]
      have hsome : zipTarget? (opcode, operand) = some (Zip.decode operand).source.toNat :=
        zipTarget?_eq_some_iff.mpr ⟨hzipmap, rfl⟩
      split
      · next hle =>
          refine iff_of_false (by simp) fun h => ?_
          exact absurd (h.zipmap _ hsome) (Nat.not_lt.mpr hle)
      · next hlt =>
          refine iff_of_true rfl ⟨fun h => absurd h hconstant, fun target htarget => ?_⟩
          rw [hsome, Option.some.injEq] at htarget
          rw [← htarget]
          exact Nat.not_le.mp hlt
    · dsimp only
      rw [if_neg hconstant, if_neg hzipmap]
      have hnone : zipTarget? (opcode, operand) = none := if_neg hzipmap
      exact iff_of_true rfl ⟨fun h => absurd h hconstant, by simp [hnone]⟩

/-- What is refused in a pair is its operand. -/
theorem invalidOperand_of_checkPair_eq_error {pair : UInt8 × UInt8} {e : Fault}
    (h : p.checkPair index pair = .error e) : ∃ refusal, e = .invalidOperand refusal := by
  unfold checkPair at h
  dsimp only at h
  split at h
  · split at h
    · exact ⟨_, (Except.error.inj h).symm⟩
    · cases h
  · split at h
    · split at h
      · exact ⟨_, (Except.error.inj h).symm⟩
      · cases h
    · cases h

private theorem checkPairs_cons (pair : UInt8 × UInt8) (rest : List (UInt8 × UInt8)) :
    p.checkPairs index (pair :: rest)
      = (p.checkPair index pair >>= fun _ => p.checkPairs index rest) := rfl

private theorem checkPairs_eq_ok_iff {code : List (UInt8 × UInt8)} :
    p.checkPairs index code = .ok () ↔ ∀ pair ∈ code, p.Admits index pair := by
  induction code with
  | nil => simp [checkPairs]
  | cons pair rest ih =>
      rw [checkPairs_cons, bind_check_eq_ok_iff, List.forall_mem_cons, checkPair_eq_ok_iff, ih]

private theorem invalidOperand_of_checkPairs_eq_error {code : List (UInt8 × UInt8)} {e : Fault}
    (h : p.checkPairs index code = .error e) : ∃ refusal, e = .invalidOperand refusal := by
  induction code with
  | nil => cases h
  | cons pair rest ih =>
      rw [checkPairs_cons] at h
      cases hpair : p.checkPair index pair with
      | error e' =>
          rw [hpair] at h
          obtain rfl : e' = e := Except.error.inj h
          exact invalidOperand_of_checkPair_eq_error hpair
      | ok v =>
          rw [hpair] at h
          exact ih h

/-! ## One source after the other -/

private theorem checkSources_cons (source : Source) (rest : List Source) :
    p.checkSources index (source :: rest)
      = if isWhole source then
          p.checkPairs index (pairs source) >>= fun _ => p.checkSources (index + 1) rest
        else .error (.truncatedSource index (source.length - 1)) := by
  rw [checkSources]
  cases isWhole source <;> rfl

private theorem checkSources_eq_ok_iff {sources : List Source} :
    p.checkSources index sources = .ok () ↔
      ∀ k code, sources[k]? = some code →
        isWhole code ∧ ∀ pair ∈ pairs code, p.Admits (index + k) pair := by
  induction sources generalizing index with
  | nil => simp [checkSources]
  | cons source rest ih =>
      rw [checkSources_cons]
      have hsplit : (∀ k code, (source :: rest)[k]? = some code →
            isWhole code ∧ ∀ pair ∈ pairs code, p.Admits (index + k) pair) ↔
          (isWhole source ∧ ∀ pair ∈ pairs source, p.Admits index pair) ∧
            ∀ k code, rest[k]? = some code →
              isWhole code ∧ ∀ pair ∈ pairs code, p.Admits (index + 1 + k) pair := by
        constructor
        · intro h
          refine ⟨h 0 source rfl, fun k code hcode => ?_⟩
          rw [Nat.add_assoc, Nat.add_comm 1]
          exact h (k + 1) code hcode
        · rintro ⟨hhead, htail⟩ k code hcode
          cases k with
          | zero =>
              cases hcode
              exact hhead
          | succ k =>
              rw [Nat.add_comm k, ← Nat.add_assoc]
              exact htail k code hcode
      rw [hsplit]
      split
      · next hwhole => rw [bind_check_eq_ok_iff, checkPairs_eq_ok_iff, ih, and_iff_right hwhole]
      · next hcut => simp [hcut]

/-- A source that is reported as cut short is among those checked, and is cut short. -/
theorem truncated_of_checkSources_eq_error {sources : List Source} {i offset : Nat}
    (h : p.checkSources index sources = .error (.truncatedSource i offset)) :
    ∃ k code, i = index + k ∧ sources[k]? = some code ∧ ¬ isWhole code ∧
      offset = code.length - 1 := by
  induction sources generalizing index with
  | nil => cases h
  | cons source rest ih =>
      rw [checkSources_cons] at h
      split at h
      · cases hpairs : p.checkPairs index (pairs source) with
        | error e =>
            -- an objection to a pair is never reported in this way
            obtain ⟨refusal, rfl⟩ := invalidOperand_of_checkPairs_eq_error hpairs
            rw [hpairs] at h
            cases h
        | ok v =>
            rw [hpairs] at h
            obtain ⟨k, code, rfl, hcode, hcut, hoffset⟩ := ih h
            exact ⟨k + 1, code, by omega, hcode, hcut, hoffset⟩
      · next hcut =>
          cases h
          exact ⟨0, source, rfl, rfl, hcut, rfl⟩

/-! ## Programs -/

/-- The check accepts the well-formed programs and no others. -/
theorem check_eq_ok_iff (p : Program) : p.check = .ok () ↔ p.WellFormed := by
  unfold check
  rw [checkSources_eq_ok_iff]
  constructor
  · intro h
    constructor
    · intro code hcode
      obtain ⟨i, hi⟩ := List.mem_iff_getElem?.mp hcode
      exact (h i code hi).1
    · intro i code hcode pair hpair
      have hadmits := (h i code hcode).2 pair hpair
      rwa [Nat.zero_add] at hadmits
  · intro h k code hcode
    rw [Nat.zero_add]
    exact ⟨h.whole code (List.mem_of_getElem? hcode), h.admits hcode⟩

/-- If the check reports a source as cut short at an offset, then the program has that
source, and the byte at that offset is the half of a pair that it ends in. -/
theorem truncated_of_check_eq_error {p : Program} {i offset : Nat}
    (h : p.check = .error (.truncatedSource i offset)) :
    ∃ code, p.sources[i]? = some code ∧ ¬ isWhole code ∧ offset = code.length - 1 := by
  obtain ⟨k, code, hi, hcode, hcut, hoffset⟩ := truncated_of_checkSources_eq_error h
  rw [Nat.zero_add] at hi
  subst hi
  exact ⟨code, hcode, hcut, hoffset⟩

end Program

end WordMachine
