import WordMachine.Proofs.Linking.Sequence
import WordMachine.Proofs.Program.Check

/-!
# Well-formed programs are closed under linking

Whether a program is well-formed depends on all of it: on the size of its pool, on the number
of its sources and on which of them a `ZIPMAP` names.  Linking changes all three.  It moves
every reference along, though, and it flags every constant read that goes past its own pool.
So a linked program is more than well-formed: none of its constant reads goes past the pool
any more, and which sources are named does not matter.

## Main definitions

* `PairFits` — a pair that is in its place in every source
* `Program.SelfContained` — a program with no constant read past its pool

## Main results

* `Link.Linked.selfContained` — a program linked from well-formed ones
* `Program.WellFormed.shiftStack`, `Program.WellFormed.linkAll` — shifted programs, and
  programs in a row
-/

namespace WordMachine

/-! ## Pairs that fit everywhere -/

/-- A pair that reads no constant past a pool and names one of a number of sources. -/
structure PairFits (pool count : Nat) (pair : UInt8 × UInt8) : Prop where
  constant : pair.1 = Instruction.constant.opcode → ¬ Fetch.goesPast pair.2 pool
  zipmap : ∀ target, zipTarget? pair = some target → target < count

/-- Every source is whole, every constant read is flagged or within the pool, and every
source that is named exists. -/
structure Program.SelfContained (p : Program) : Prop where
  whole : ∀ code ∈ p.sources, isWhole code
  fits : ∀ code ∈ p.sources, ∀ pair ∈ pairs code,
    PairFits p.constants.length p.sources.length pair

theorem Program.SelfContained.wellFormed {p : Program} (h : p.SelfContained) : p.WellFormed where
  whole := h.whole
  admits {_ code} hcode pair hpair := by
    have hfits := h.fits code (List.mem_of_getElem? hcode) pair hpair
    exact ⟨fun hconstant hpast => absurd hpast (hfits.constant hconstant), hfits.zipmap⟩

/-- The un-flagged constant reads of a self-contained program are within its pool. -/
theorem Program.SelfContained.constant_lt {p : Program} (h : p.SelfContained) :
    ∀ code ∈ p.sources, ∀ operand, (Instruction.constant.opcode, operand) ∈ pairs code →
      operand &&& argumentFlag = 0 → operand.toNat < p.constants.length := by
  intro code hcode operand hpair hflag
  have hwithin := (h.fits code hcode _ hpair).constant rfl
  simpa [Fetch.goesPast, hflag] using hwithin

/-- Only the flagged operands and those within the pool do not go past it. -/
theorem Fetch.not_goesPast_iff {operand : UInt8} {pool : Nat} :
    ¬ goesPast operand pool ↔ maxConstantIndex < operand.toNat ∨ operand.toNat < pool := by
  rw [← flagged_iff]
  unfold goesPast
  simp only [Bool.and_eq_true, beq_iff_eq, decide_eq_true_iff, not_and, Nat.not_le]
  exact Decidable.imp_iff_not_or

namespace Link

/-! ## Changed operands -/

/-- A pinned constant read does not go past a pool that is at least as long. -/
theorem not_goesPast_of_pinArgument {pool pool' : Nat} (hpool : pool ≤ pool') {x x' : UInt8}
    (h : pinArgument x pool = .ok x') : ¬ Fetch.goesPast x' pool' := by
  rw [Fetch.not_goesPast_iff]
  unfold pinArgument at h
  split at h
  · next i _ =>
      have hencode := mapError_eq_ok_iff.mp h
      rw [Fetch.encode] at hencode
      split at hencode
      · cases hencode
      · next hsmall =>
          cases hencode
          exact .inl ((Fetch.flagged_iff _).mp (Fetch.and_mask_of_or_flag i hsmall).1)
  · next i hresolve =>
      cases h
      obtain ⟨-, -, hlt⟩ := Fetch.resolve_eq_constant_iff.mp hresolve
      exact .inr (Nat.lt_of_lt_of_le hlt hpool)

/-- A moved constant read does not go past the two pools together. -/
theorem Move.not_goesPast_of_constant {move : Move} {source : Nat} {x x' : UInt8}
    (h : move.constant source x = .ok x') :
    ¬ Fetch.goesPast x' (move.basePool + move.pool) := by
  unfold Move.constant at h
  split at h
  · exact not_goesPast_of_pinArgument (Nat.le_add_left _ _) h
  · next i hresolve =>
      obtain ⟨rfl, -, hlt⟩ := Fetch.resolve_eq_constant_iff.mp hresolve
      dsimp only at h
      split at h
      · cases h
      · next hfits =>
          cases h
          rw [maxConstantIndex] at hfits
          rw [Fetch.not_goesPast_iff, UInt8.toNat_ofNat']
          omega

/-- What holds of the pairs of some code, and survives the change of an operand, holds of the
pairs of the changed code. -/
theorem forall_pairs_of_copied {f : UInt8 → UInt8 → Except LinkError UInt8} {code code' : Source}
    (h : Copied f code code') {P Q : UInt8 × UInt8 → Prop} (hcode : ∀ pair ∈ pairs code, P pair)
    (hchange : ∀ {opcode operand operand'}, P (opcode, operand) → f opcode operand = .ok operand' →
      Q (opcode, operand')) :
    ∀ pair ∈ pairs code', Q pair := by
  have hpairs := h.pairs
  generalize pairs code = before at hpairs hcode
  generalize pairs code' = after at hpairs
  induction hpairs with
  | nil => simp
  | @cons pair pair' _ _ hhead _ ih =>
      obtain ⟨opcode', operand'⟩ := pair'
      obtain ⟨rfl, hoperand⟩ := hhead
      obtain ⟨hpair, hrest⟩ := List.forall_mem_cons.mp hcode
      exact List.forall_mem_cons.mpr ⟨hchange hpair hoperand, ih hrest⟩

private theorem filterMap_zipTarget?_of_copied {f : UInt8 → UInt8 → Except LinkError UInt8}
    {code code' : Source} (h : Copied f code code')
    (hchange : ∀ {opcode operand operand'}, f opcode operand = .ok operand' →
      zipTarget? (opcode, operand') = zipTarget? (opcode, operand)) :
    (pairs code').filterMap zipTarget? = (pairs code).filterMap zipTarget? := by
  have hpairs := h.pairs
  generalize pairs code = before at hpairs
  generalize pairs code' = after at hpairs
  induction hpairs with
  | nil => rfl
  | @cons pair pair' _ _ hhead _ ih =>
      obtain ⟨opcode', operand'⟩ := pair'
      obtain ⟨rfl, hoperand⟩ := hhead
      simp only [List.filterMap_cons, hchange hoperand, ih]

/-- Every changed source comes from one. -/
theorem exists_copied_of_mapSources {f : Nat → UInt8 → UInt8 → Except LinkError UInt8}
    {index : Nat} {sources out : List Source} (h : mapSources f index sources = .ok out) {i : Nat}
    {code' : Source} (hcode' : out[i]? = some code') :
    ∃ code, sources[i]? = some code ∧ Copied (f (index + i)) code code' := by
  obtain ⟨hlength, hcopied⟩ := copied_of_mapSources h
  have hlt : i < sources.length := hlength ▸ (List.getElem?_eq_some_iff.mp hcode').1
  have hcode : sources[i]? = some sources[i] := List.getElem?_eq_getElem hlt
  obtain ⟨code'', hcode'', hcopy⟩ := hcopied hcode
  obtain rfl : code'' = code' := Option.some.inj (hcode''.symm.trans hcode')
  exact ⟨_, hcode, hcopy⟩

/-! ## Linked programs -/

section

variable {a b c : Program} {options : LinkOptions}

/-- Every source of a linked program is whole and has only pairs of changed sources: of one
of the base, of one of the appended program, or of two that were merged. -/
theorem Linked.forall_sources (h : Linked a b c options) {Q : UInt8 × UInt8 → Prop}
    (hbase : ∀ {code code'}, code ∈ a.sources → Copied (pinPair a.constants.length) code code' →
      ∀ pair ∈ pairs code', Q pair)
    (happended : ∀ {k code code'}, code ∈ b.sources →
      Copied ((options.move a b).pair k) code code' → ∀ pair ∈ pairs code', Q pair)
    {source : Source} (hsource : source ∈ c.sources) :
    isWhole source ∧ ∀ pair ∈ pairs source, Q pair := by
  obtain ⟨k, hk⟩ := List.mem_iff_getElem?.mp hsource
  have hlt : k < a.sources.length + b.sources.length - options.merged :=
    h.length ▸ (List.getElem?_eq_some_iff.mp hk).1
  have hmerged := h.merged_le
  by_cases hfront : k < a.sources.length
  · have htarget : a.sources[k]? = some a.sources[k] := List.getElem?_eq_getElem hfront
    by_cases houtside : options.Outside k
    · obtain ⟨code', hcode', hcopied⟩ := h.base htarget houtside
      obtain rfl : code' = source := Option.some.inj (hcode'.symm.trans hk)
      exact ⟨hcopied.whole', hbase (List.getElem_mem hfront) hcopied⟩
    · -- an index that is merged into counts from the splice
      have hsplice : options.spliceAt + (k - options.spliceAt) = k := by
        unfold LinkOptions.Outside at houtside
        omega
      have hi : k - options.spliceAt < options.merged := by
        unfold LinkOptions.Outside at houtside
        omega
      have hcode := List.getElem?_eq_getElem (Nat.lt_of_lt_of_le hi hmerged)
      obtain ⟨target', code', source', htargetCopied, hcodeCopied, hsource', hwhole, hpairs⟩ :=
        h.merged hi (by rw [hsplice, htarget]) hcode
      rw [hsplice] at hsource'
      obtain rfl : source' = source := Option.some.inj (hsource'.symm.trans hk)
      have hfromBase := hbase (List.getElem_mem hfront) htargetCopied
      have hfromAppended := happended (List.mem_of_getElem? hcode) hcodeCopied
      refine ⟨hwhole, fun pair hpair => ?_⟩
      rw [hpairs, List.mem_append, List.mem_append] at hpair
      rcases hpair with (hpair | hpair) | hpair
      · exact hfromBase pair (List.mem_of_mem_take hpair)
      · exact hfromAppended pair hpair
      · exact hfromBase pair (List.mem_of_mem_drop hpair)
  · have hb : k - a.sources.length + options.merged < b.sources.length := by omega
    have hcode := List.getElem?_eq_getElem hb
    obtain ⟨code', hcode', hcopied⟩ := h.appended hcode (Nat.le_add_left _ _)
    rw [show a.sources.length + (k - a.sources.length + options.merged) - options.merged = k by
      omega] at hcode'
    obtain rfl : code' = source := Option.some.inj (hcode'.symm.trans hk)
    exact ⟨hcopied.whole', happended (List.getElem_mem hb) hcopied⟩

/-- A pinned pair of the base fits, if it named a source of the base. -/
theorem Linked.fits_of_pinPair (h : Linked a b c options) {opcode operand operand' : UInt8}
    (hpair : ∀ target, zipTarget? (opcode, operand) = some target → target < a.sources.length)
    (hpin : pinPair a.constants.length opcode operand = .ok operand') :
    PairFits c.constants.length c.sources.length (opcode, operand') := by
  have hmerged := h.merged_le
  have hlength : a.sources.length ≤ c.sources.length := by
    rw [h.length]
    omega
  have hpool : a.constants.length ≤ c.constants.length := by
    rw [h.constants, List.length_append]
    exact Nat.le_add_right _ _
  unfold pinPair at hpin
  split at hpin
  · next hconstant =>
      subst hconstant
      refine ⟨fun _ => not_goesPast_of_pinArgument hpool hpin, fun target htarget => ?_⟩
      cases htarget
  · next hconstant =>
      cases hpin
      exact ⟨fun h => absurd h hconstant,
        fun target htarget => Nat.lt_of_lt_of_le (hpair target htarget) hlength⟩

/-- A moved pair fits, if it named a source of the appended program. -/
theorem Linked.fits_of_movePair (h : Linked a b c options) {k : Nat}
    {opcode operand operand' : UInt8}
    (hpair : ∀ target, zipTarget? (opcode, operand) = some target → target < b.sources.length)
    (hmove : (options.move a b).pair k opcode operand = .ok operand') :
    PairFits c.constants.length c.sources.length (opcode, operand') := by
  unfold Move.pair at hmove
  split at hmove
  · next hconstant =>
      subst hconstant
      refine ⟨fun _ => ?_, fun target htarget => ?_⟩
      · rw [h.constants, List.length_append]
        exact Move.not_goesPast_of_constant hmove
      · cases htarget
  · next hconstant =>
      refine ⟨fun h => absurd h hconstant, fun target htarget => ?_⟩
      split at hmove
      · next hzipmap =>
          obtain ⟨-, rfl⟩ := zipTarget?_eq_some_iff.mp htarget
          have hold : (Zip.decode operand).source.toNat < b.sources.length :=
            hpair _ (zipTarget?_eq_some_iff.mpr ⟨hzipmap, rfl⟩)
          have hsplice := h.splice_le
          have hmerged := h.merged_le
          rw [Move.source_of_zip hmove, h.length]
          unfold Move.source LinkOptions.move
          dsimp only
          split
          · omega
          · omega
      · next hzipmap => exact absurd (zipTarget?_eq_some_iff.mp htarget).1 hzipmap

/-- A program linked from well-formed ones has no constant read past its pool. -/
theorem Linked.selfContained (h : Linked a b c options) (ha : a.WellFormed) (hb : b.WellFormed) :
    c.SelfContained := by
  have hall : ∀ source ∈ c.sources, isWhole source ∧
      ∀ pair ∈ pairs source, PairFits c.constants.length c.sources.length pair := by
    intro source hsource
    refine h.forall_sources ?_ ?_ hsource
    · intro code code' hcode hcopied
      exact forall_pairs_of_copied hcopied (ha.zipmap_lt hcode) h.fits_of_pinPair
    · intro k code code' hcode hcopied
      exact forall_pairs_of_copied hcopied (hb.zipmap_lt hcode) h.fits_of_movePair
  exact ⟨fun source hsource => (hall source hsource).1,
    fun source hsource => (hall source hsource).2⟩

end

end Link

namespace Program

/-! ## Shifted programs -/

private theorem zipTarget?_of_shiftPair {offset source : Nat} {opcode operand operand' : UInt8}
    (h : shiftPair offset source opcode operand = .ok operand') :
    zipTarget? (opcode, operand') = zipTarget? (opcode, operand) := by
  unfold shiftPair at h
  split at h
  · next hstack =>
      subst hstack
      rfl
  · cases h
    rfl

/-- Shifting leaves constants and `ZIPMAP`s as they are. -/
theorem WellFormed.shiftStack {p shifted : Program} {offset : Nat} (hp : p.WellFormed)
    (h : p.shiftStack offset = .ok shifted) : shifted.WellFormed := by
  unfold Program.shiftStack at h
  split at h
  · cases h
    exact hp
  · obtain ⟨sources, hsources, h⟩ := except_bind_eq_ok h
    cases h
    obtain ⟨hlength, hcopied⟩ := Link.copied_of_mapSources hsources
    have hnamed : ∀ {j}, j ∈ p.zipTargets →
        j ∈ Program.zipTargets { p with sources := sources } := by
      intro j hj
      obtain ⟨i, code, hcode, hmem⟩ := mem_zipTargets_iff.mp hj
      obtain ⟨code', hcode', hcopy⟩ := hcopied hcode
      refine mem_zipTargets_iff.mpr ⟨i, code', hcode', ?_⟩
      rw [Link.filterMap_zipTarget?_of_copied hcopy zipTarget?_of_shiftPair]
      exact hmem
    constructor
    · intro code' hmem
      obtain ⟨i, hcode'⟩ := List.mem_iff_getElem?.mp hmem
      obtain ⟨code, -, hcopy⟩ := Link.exists_copied_of_mapSources hsources hcode'
      exact hcopy.whole'
    · intro i code' hcode'
      obtain ⟨code, hcode, hcopy⟩ := Link.exists_copied_of_mapSources hsources hcode'
      refine Link.forall_pairs_of_copied hcopy (hp.admits hcode) fun hadmits hshift => ?_
      constructor
      · rintro rfl hpast
        cases hshift
        exact hnamed (hadmits.constant rfl hpast)
      · intro target htarget
        rw [zipTarget?_of_shiftPair hshift] at htarget
        exact hlength ▸ hadmits.zipmap target htarget

private theorem WellFormed.shiftIf {p shifted : Program} {reassign : Bool} {offset : Nat}
    (hp : p.WellFormed) (h : shiftIf reassign p offset = .ok shifted) : shifted.WellFormed := by
  cases reassign with
  | false =>
      cases h
      exact hp
  | true => exact hp.shiftStack h

/-! ## Programs in a row -/

theorem WellFormed.link {a b c : Program} {options : LinkOptions} (ha : a.WellFormed)
    (hb : b.WellFormed) (h : a.link b options = .ok c) : c.WellFormed :=
  ((Link.linked_of_link_eq_ok h).selfContained ha hb).wellFormed

private theorem WellFormed.linkAfter {reassign : Bool} {combined q : Program} {offset : Nat}
    {rest : List Program} (hcombined : combined.WellFormed) (hrest : ∀ p ∈ rest, p.WellFormed)
    (h : combined.linkAfter reassign offset rest = .ok q) : q.WellFormed := by
  induction rest generalizing combined offset with
  | nil =>
      cases h
      exact hcombined
  | cons p rest ih =>
      obtain ⟨hp, hrest⟩ := List.forall_mem_cons.mp hrest
      obtain ⟨shifted, hshift, h⟩ := except_bind_eq_ok h
      obtain ⟨next, hnext, h⟩ := except_bind_eq_ok h
      exact ih (hcombined.link (hp.shiftIf hshift) hnext) hrest h

theorem WellFormed.linkAll {reassign : Bool} {programs : List Program} {q : Program}
    (hall : ∀ p ∈ programs, p.WellFormed) (h : linkAll programs reassign = .ok q) :
    q.WellFormed := by
  cases programs with
  | nil => cases h
  | cons first rest =>
      obtain ⟨hfirst, hrest⟩ := List.forall_mem_cons.mp hall
      exact hfirst.linkAfter hrest h

theorem WellFormed.linkPair {reassign : Bool} {a b q : Program} (ha : a.WellFormed)
    (hb : b.WellFormed) (h : a.linkPair b reassign = .ok q) : q.WellFormed := by
  rw [linkPair_eq_linkAll] at h
  exact linkAll (by simp [ha, hb]) h

end Program

end WordMachine
