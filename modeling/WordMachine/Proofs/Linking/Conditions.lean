import WordMachine.Proofs.Linking.Associativity
import WordMachine.Proofs.Linking.Validity

/-!
# When programs can be linked

Linking checks numbers of sources, operands and positions at different times, each
operand of each source on its own.  Whether it succeeds is nevertheless one condition on the
two programs and the options, and nothing else is refused: an operand that is moved far enough
to have no byte is refused as a mismatch of shapes before it is encoded, so encoding it never
fails.  The condition follows the recursion of linking, part by part.

## Main definitions

* `LinkError.isShapeMismatch` — the errors about the shape of programs
* `Link.Requires` — a computation that succeeds exactly under a condition
* `Link.Move.Admits` — a pair that can be moved
* `LinkOptions.Admits` — programs that can be linked

## Main results

* `Link.requires_mapSources`, `Link.requires_mergeAll` — the condition for each part
* `linking_fails_exactly_on_mismatched_shapes` — the condition for linking
-/

namespace WordMachine

/-- The error is about the shape of the programs, and not about fields that have no byte. -/
def LinkError.isShapeMismatch : LinkError → Bool
  | .operand _ => false
  | _ => true

private theorem LinkError.message_of_isShapeMismatch {e : LinkError} (h : e.isShapeMismatch) :
    e.message = "cannot combine programs: " ++ e.reason := by
  cases e with
  | operand => cases h
  | _ => rfl

/-- Every pair takes two bytes. -/
theorem length_ofPairs (code : List (UInt8 × UInt8)) : (ofPairs code).length = 2 * code.length := by
  induction code with
  | nil => rfl
  | cons head rest ih =>
      show (ofPairs rest).length + 2 = 2 * (rest.length + 1)
      omega

namespace Link

/-! ## Computations with a condition -/

/-- The computation succeeds exactly under the condition `P`, and else it reports that shapes do
not match. -/
structure Requires {α : Type} (x : Except LinkError α) (P : Prop) : Prop where
  succeeds_iff : (∃ v, x = .ok v) ↔ P
  mismatch : ∀ e, x = .error e → e.isShapeMismatch

namespace Requires

variable {α β : Type} {x : Except LinkError α} {P Q : Prop}

private theorem ok (v : α) : Requires (.ok v) True where
  succeeds_iff := ⟨fun _ => trivial, fun _ => ⟨v, rfl⟩⟩
  mismatch _ h := by cases h

private theorem error {e : LinkError} (h : e.isShapeMismatch) :
    Requires (.error e : Except LinkError α) False where
  succeeds_iff := ⟨fun ⟨_, hv⟩ => (by cases hv), False.elim⟩
  mismatch _ he := by
    cases he
    exact h

private theorem congr (hx : Requires x P) (h : P ↔ Q) : Requires x Q where
  succeeds_iff := hx.succeeds_iff.trans h
  mismatch := hx.mismatch

/-- A computation after a test that fails with a mismatch of shapes. -/
theorem of_test {refused : Prop} [Decidable refused] {e : LinkError} (h : e.isShapeMismatch)
    (hx : Requires x P) : Requires (if refused then .error e else x) (¬ refused ∧ P) := by
  by_cases hrefused : refused
  · rw [if_pos hrefused]
    exact (error h).congr (by simp [hrefused])
  · rw [if_neg hrefused]
    exact hx.congr (by simp [hrefused])

/-- Two computations in a row require both conditions.  That of the second may rely on the
success of the first. -/
theorem bind {f : α → Except LinkError β} (hx : Requires x P)
    (hf : ∀ v, x = .ok v → Requires (f v) Q) : Requires (x >>= f) (P ∧ Q) := by
  cases x with
  | error e =>
      have hP : ¬ P := fun hP => by
        obtain ⟨v, hv⟩ := hx.succeeds_iff.mpr hP
        cases hv
      exact (error (hx.mismatch e rfl)).congr (by simp [hP])
  | ok v =>
      have hP : P := hx.succeeds_iff.mp ⟨v, rfl⟩
      exact (hf v rfl).congr (by simp [hP])

end Requires

/-! ## Changed sources -/

section

variable {P : UInt8 × UInt8 → Prop}

private theorem requires_mapPairs {f : UInt8 → UInt8 → Except LinkError UInt8}
    (h : ∀ opcode operand, Requires (f opcode operand) (P (opcode, operand)))
    (code : List (UInt8 × UInt8)) : Requires (mapPairs f code) (∀ pair ∈ code, P pair) := by
  induction code with
  | nil => exact (Requires.ok []).congr (by simp)
  | cons head rest ih =>
      have hrest : ∀ moved, Requires
          (do let code ← mapPairs f rest; return head.1 :: moved :: code)
          ((∀ pair ∈ rest, P pair) ∧ True) := fun moved =>
        ih.bind fun code _ => .ok _
      exact ((h head.1 head.2).bind fun moved _ => hrest moved).congr (by simp)

private theorem requires_mapSource {f : UInt8 → UInt8 → Except LinkError UInt8}
    (h : ∀ opcode operand, Requires (f opcode operand) (P (opcode, operand))) (index : Nat)
    (source : Source) :
    Requires (mapSource f index source) (isWhole source ∧ ∀ pair ∈ pairs source, P pair) := by
  rw [mapSource]
  by_cases hwhole : isWhole source
  · rw [if_pos hwhole]
    exact (requires_mapPairs h (pairs source)).congr (by simp [hwhole])
  · rw [if_neg hwhole]
    exact (Requires.error rfl).congr (by simp [hwhole])

/-- Changing sources requires that they are whole and that each of their pairs can be
changed. -/
theorem requires_mapSources {f : Nat → UInt8 → UInt8 → Except LinkError UInt8}
    (h : ∀ i opcode operand, Requires (f i opcode operand) (P (opcode, operand))) (index : Nat)
    (sources : List Source) :
    Requires (mapSources f index sources)
      (∀ code ∈ sources, isWhole code ∧ ∀ pair ∈ pairs code, P pair) := by
  induction sources generalizing index with
  | nil => exact (Requires.ok []).congr (by simp)
  | cons source rest ih =>
      have hrest : ∀ code, Requires
          (do let codes ← mapSources f (index + 1) rest; return code :: codes)
          ((∀ code ∈ rest, isWhole code ∧ ∀ pair ∈ pairs code, P pair) ∧ True) := fun code =>
        (ih (index + 1)).bind fun codes _ => .ok _
      exact ((requires_mapSource (h index) index source).bind fun code _ => hrest code).congr
        (by simp)

end

/-! ## Changed operands -/

private theorem requires_pinPair (pool : Nat) (opcode operand : UInt8) :
    Requires (pinPair pool opcode operand) True := by
  rw [pinPair, pinArgument_eq]
  split <;> exact .ok _

/-- The new place of what a pair names fits into an operand.  Only a `ZIPMAP` and an un-flagged
`CONSTANT` within its pool name something that moves. -/
structure Move.Admits (move : Move) (pair : UInt8 × UInt8) : Prop where
  constant : pair.1 = Instruction.constant.opcode → pair.2 &&& argumentFlag = 0 →
    pair.2.toNat < move.pool → pair.2.toNat + move.basePool ≤ maxConstantIndex
  zipmap : pair.1 = Instruction.zipmap.opcode →
    move.source (Zip.decode pair.2).source.toNat ≤ maxZipSource

/-- A `ZIPMAP` has a byte with every source that an operand can name. -/
theorem exists_encode_of_le (operand : UInt8) {moved : Nat} (h : moved ≤ maxZipSource) :
    ∃ byte, ({ Zip.decode operand with source := .ofNat moved } : Zip).encode = .ok byte := by
  apply Zip.encode_of_le
  rw [maxZipSource] at h ⊢
  rw [UInt8.toNat_ofNat']
  omega

private theorem Move.source_le_iff {move : Move} {target bound : Nat} :
    move.source target ≤ bound
      ↔ (target < move.merged → target + move.spliceAt ≤ bound) ∧
        (move.merged ≤ target → target + move.baseSources - move.merged ≤ bound) := by
  rw [Move.source]
  by_cases hmerged : target < move.merged
  · rw [if_pos hmerged]
    simp only [hmerged, Nat.not_le.mpr hmerged, true_imp_iff, false_imp_iff, and_true]
  · rw [if_neg hmerged]
    simp only [hmerged, Nat.not_lt.mp hmerged, true_imp_iff, false_imp_iff, true_and]

private theorem requires_moveConstant (move : Move) (source : Nat) (operand : UInt8) :
    Requires (move.constant source operand)
      (operand &&& argumentFlag = 0 → operand.toNat < move.pool →
        operand.toNat + move.basePool ≤ maxConstantIndex) := by
  have hflag : operand &&& argumentFlag = 0 ↔ operand.toNat ≤ maxConstantIndex := by
    rw [← Nat.not_lt, ← Fetch.flagged_iff]
    exact Decidable.not_not.symm
  rw [Move.constant, hflag]
  cases hresolve : Fetch.resolve operand move.pool with
  | argument i =>
      dsimp only
      rw [pinArgument_eq]
      refine (Requires.ok _).congr (iff_of_true trivial fun hsmall hlt => ?_)
      -- an operand within the pool would have been resolved to a constant
      rw [Fetch.resolve_eq_constant_iff.mpr ⟨rfl, hsmall, hlt⟩] at hresolve
      cases hresolve
  | constant i =>
      obtain ⟨rfl, hsmall, hlt⟩ := Fetch.resolve_eq_constant_iff.mp hresolve
      exact (Requires.of_test rfl (.ok _)).congr (by simp [hsmall, hlt])

private theorem requires_moveZip (move : Move) (source : Nat) (operand : UInt8) :
    Requires (move.zip source operand)
      (move.source (Zip.decode operand).source.toNat ≤ maxZipSource) := by
  rw [Move.zip]
  by_cases hfits : move.source (Zip.decode operand).source.toNat ≤ maxZipSource
  · obtain ⟨moved, hencode⟩ := exists_encode_of_le operand hfits
    rw [if_neg (Nat.not_lt.mpr hfits), hencode]
    exact (Requires.ok moved).congr (by simp [hfits])
  · rw [if_pos (Nat.not_le.mp hfits)]
    exact (Requires.error rfl).congr (by simp [hfits])

private theorem requires_movePair (move : Move) (source : Nat) (opcode operand : UInt8) :
    Requires (move.pair source opcode operand) (move.Admits (opcode, operand)) := by
  rw [Move.pair]
  by_cases hconstant : opcode = Instruction.constant.opcode
  · subst hconstant
    rw [if_pos rfl]
    refine (requires_moveConstant move source operand).congr ⟨fun h => ⟨fun _ => h, ?_⟩, ?_⟩
    · intro hzipmap
      cases hzipmap
    · intro h
      exact h.constant rfl
  · rw [if_neg hconstant]
    by_cases hzipmap : opcode = Instruction.zipmap.opcode
    · subst hzipmap
      rw [if_pos rfl]
      refine (requires_moveZip move source operand).congr ⟨fun h => ⟨?_, fun _ => h⟩, ?_⟩
      · intro hconstant
        cases hconstant
      · intro h
        exact h.zipmap rfl
    · rw [if_neg hzipmap]
      exact (Requires.ok operand).congr (iff_of_true trivial
        ⟨fun h => absurd h hconstant, fun h => absurd h hzipmap⟩)

/-! ## Merged sources -/

private theorem requires_mergeOne (index : Nat) (target code : Source) (place : Option Nat) :
    Requires (mergeOne index target code place)
      (∀ offset, place = some offset → offset % 2 = 0 ∧ offset ≤ target.length) := by
  cases place with
  | none => exact (Requires.ok _).congr (by simp)
  | some offset =>
      refine (Requires.of_test rfl (.ok _)).congr ?_
      simp only [not_or, Decidable.not_not, Nat.not_lt, and_true, Option.some.injEq,
        forall_eq']

/-- Merging requires that each offset that is used lies between two pairs of its target. -/
theorem requires_mergeAll (index : Nat) (targets codes : List Source)
    (places : List (Option Nat)) :
    Requires (mergeAll index targets codes places)
      (∀ i target offset, targets[i]? = some target → i < codes.length →
        places[i]? = some (some offset) → offset % 2 = 0 ∧ offset ≤ target.length) := by
  induction targets generalizing index codes places with
  | nil => exact (Requires.ok _).congr (by simp)
  | cons target targets ih =>
      cases codes with
      | nil => exact (Requires.ok _).congr (by simp)
      | cons code codes =>
          cases places with
          | nil => exact (Requires.ok _).congr (by simp)
          | cons place places =>
              have hrest : ∀ source, Requires
                  (do let sources ← mergeAll (index + 1) targets codes places
                      return source :: sources) _ := fun source =>
                (ih (index + 1) codes places).bind fun sources _ => .ok (source :: sources)
              refine ((requires_mergeOne index target code place).bind
                fun source _ => hrest source).congr ⟨?_, fun h => ⟨?_, ?_, trivial⟩⟩
              · rintro ⟨hhead, htail, -⟩ i target' offset htarget hcode hplace
                cases i with
                | zero =>
                    cases htarget
                    exact hhead offset (Option.some.inj hplace)
                | succ i =>
                    exact htail i target' offset htarget (Nat.lt_of_succ_lt_succ hcode) hplace
              · intro offset hplace
                exact h 0 target offset rfl (Nat.zero_lt_succ _) (congrArg some hplace)
              · intro i target' offset htarget hcode hplace
                exact h (i + 1) target' offset htarget (Nat.succ_lt_succ hcode) hplace

private theorem Copied.length_eq {f : UInt8 → UInt8 → Except LinkError UInt8} {code code' : Source}
    (h : Copied f code code') : code'.length = code.length := by
  rw [← ofPairs_pairs h.whole', ← ofPairs_pairs h.whole, length_ofPairs, length_ofPairs,
    h.pairs.length_eq]

end Link

/-! ## Linked programs -/

/-- The two programs can be linked: the sources that are merged exist in both of them, every
position lies between two pairs of the source that it is for, every source is whole, and what
the appended program names still fits into an operand at its new place. -/
structure LinkOptions.Admits (options : LinkOptions) (a b : Program) : Prop where
  merged_le : options.merged ≤ b.sources.length
  splice_le : options.spliceAt + options.merged ≤ a.sources.length
  positions_length : ∀ offsets, options.positions = some offsets →
    offsets.length = options.merged
  position : ∀ offsets, options.positions = some offsets →
    ∀ i offset target, offsets[i]? = some offset →
      a.sources[options.spliceAt + i]? = some target →
      offset % 2 = 0 ∧ offset ≤ target.length
  whole : ∀ code, code ∈ a.sources ∨ code ∈ b.sources → code.length % 2 = 0
  constant : ∀ code ∈ b.sources, ∀ operand,
    (Instruction.constant.opcode, operand) ∈ pairs code → operand &&& argumentFlag = 0 →
    operand.toNat < b.constants.length → operand.toNat + a.constants.length ≤ 127
  zipmap : ∀ code ∈ b.sources, ∀ operand, (Instruction.zipmap.opcode, operand) ∈ pairs code →
    let target := (Zip.decode operand).source.toNat
    (target < options.merged → target + options.spliceAt ≤ 7) ∧
      (options.merged ≤ target → target + a.sources.length - options.merged ≤ 7)

/-- Only a given position is an offset to insert at. -/
theorem LinkOptions.places_eq_some_iff {options : LinkOptions} {i offset : Nat} :
    options.places[i]? = some (some offset)
      ↔ ∃ offsets, options.positions = some offsets ∧ offsets[i]? = some offset := by
  unfold LinkOptions.places
  cases options.positions with
  | none =>
      simp only [List.getElem?_replicate]
      constructor
      · intro h
        split at h <;> cases h
      · rintro ⟨offsets, hoffsets, -⟩
        cases hoffsets
  | some offsets => simp

namespace Link

private theorem requires_check (options : LinkOptions) (baseSources sources : Nat) :
    Requires (options.check baseSources sources)
      (options.merged ≤ sources ∧ options.spliceAt + options.merged ≤ baseSources ∧
        ∀ offsets, options.positions = some offsets → offsets.length = options.merged) := by
  unfold LinkOptions.check
  rw [← Nat.not_lt, ← Nat.not_lt]
  apply Requires.of_test rfl
  apply Requires.of_test rfl
  cases options.positions with
  | none => exact (Requires.ok ()).congr (by simp)
  | some offsets => exact (Requires.of_test rfl (.ok ())).congr (by simp)

/-- The sources that are merged into are as long as the sources of the base that they come
from. -/
theorem requires_merge {a b : Program} {options : LinkOptions} {base moved : List Source}
    (hcheck : options.check a.sources.length b.sources.length = .ok ())
    (hbase : mapSources (fun _ => pinPair a.constants.length) 0 a.sources = .ok base)
    (hmoved : mapSources (options.move a b).pair 0 b.sources = .ok moved) :
    Requires (mergeAll options.spliceAt (base.drop options.spliceAt)
        (moved.take options.merged) options.places)
      (∀ offsets, options.positions = some offsets →
        ∀ i offset target, offsets[i]? = some offset →
          a.sources[options.spliceAt + i]? = some target →
          offset % 2 = 0 ∧ offset ≤ target.length) := by
  obtain ⟨hmerged, hsplice, hplaces⟩ := check_eq_ok hcheck
  obtain ⟨hlength, hcopied⟩ := copied_of_mapSources hbase
  have hcodes : (moved.take options.merged).length = options.merged := by
    have := (copied_of_mapSources hmoved).1
    rw [List.length_take]
    omega
  refine (requires_mergeAll _ _ _ _).congr ⟨?_, ?_⟩
  · intro h offsets hoffsets i offset target hoffset htarget
    obtain ⟨target', htarget', hcopy⟩ := hcopied htarget
    have hplace := LinkOptions.places_eq_some_iff.mpr ⟨offsets, hoffsets, hoffset⟩
    have hi := (List.getElem?_eq_some_iff.mp hplace).1
    rw [← hcopy.length_eq]
    exact h i target' offset (by rw [List.getElem?_drop, htarget']) (by omega) hplace
  · intro h i target' offset htarget' _ hplace
    rw [List.getElem?_drop] at htarget'
    obtain ⟨target, htarget, hcopy⟩ := exists_copied_of_mapSources hbase htarget'
    obtain ⟨offsets, hoffsets, hoffset⟩ := LinkOptions.places_eq_some_iff.mp hplace
    rw [hcopy.length_eq]
    exact h offsets hoffsets i offset target hoffset htarget

/-- Linking requires that the options admit the two programs. -/
theorem requires_link (a b : Program) (options : LinkOptions) :
    Requires (a.link b options) (options.Admits a b) := by
  have hpin : Requires (mapSources (fun _ => pinPair a.constants.length) 0 a.sources)
      (∀ code ∈ a.sources, isWhole code ∧ ∀ pair ∈ pairs code, True) :=
    requires_mapSources (fun _ => requires_pinPair a.constants.length) 0 a.sources
  have hmove := requires_mapSources (requires_movePair (options.move a b)) 0 b.sources
  refine ((requires_check options a.sources.length b.sources.length).bind fun _ hcheck =>
    hpin.bind fun base hbase => hmove.bind fun moved hmoved =>
      (requires_merge hcheck hbase hmoved).bind fun _ _ => .ok _).congr ⟨?_, fun h => ?_⟩
  · rintro ⟨⟨hmerged, hsplice, hlength⟩, hbase, hmoved, hposition, -⟩
    refine ⟨hmerged, hsplice, hlength, hposition, ?_, ?_, ?_⟩
    · rintro code (hcode | hcode)
      · exact eq_of_beq (hbase code hcode).1
      · exact eq_of_beq (hmoved code hcode).1
    · intro code hcode operand hpair
      exact ((hmoved code hcode).2 _ hpair).constant rfl
    · intro code hcode operand hpair
      exact Move.source_le_iff.mp (((hmoved code hcode).2 _ hpair).zipmap rfl)
  · refine ⟨⟨h.merged_le, h.splice_le, h.positions_length⟩, ?_, ?_, h.position, trivial⟩
    · intro code hcode
      exact ⟨beq_iff_eq.mpr (h.whole code (.inl hcode)), fun _ _ => trivial⟩
    · intro code hcode
      refine ⟨beq_iff_eq.mpr (h.whole code (.inr hcode)), ?_⟩
      rintro ⟨opcode, operand⟩ hpair
      refine ⟨?_, ?_⟩
      · rintro rfl
        exact h.constant code hcode operand hpair
      · rintro rfl
        exact Move.source_le_iff.mpr (h.zipmap code hcode operand hpair)

end Link

/-- Linking succeeds exactly for programs that its options admit.  Otherwise the error is that
shapes do not match: the encoders of operands are only given fields that have a byte. -/
theorem linking_fails_exactly_on_mismatched_shapes (a b : Program) (options : LinkOptions) :
    ((∃ c, a.link b options = .ok c) ↔ options.Admits a b) ∧
    (∀ e, a.link b options = .error e →
      e.isShapeMismatch ∧ e.message = "cannot combine programs: " ++ e.reason) ∧
    (∀ operand pool i, Fetch.resolve operand pool = .argument i →
      ∃ byte, (Fetch.argument i).encode = .ok byte) ∧
    (∀ operand target, (options.move a b).source target ≤ maxZipSource →
      ∃ byte, ({ Zip.decode operand with source := .ofNat ((options.move a b).source target) } :
        Zip).encode = .ok byte) := by
  have hlink := Link.requires_link a b options
  refine ⟨hlink.succeeds_iff, ?_, ?_, ?_⟩
  · intro e he
    have hmismatch := hlink.mismatch e he
    exact ⟨hmismatch, LinkError.message_of_isShapeMismatch hmismatch⟩
  · intro operand pool i hresolve
    have hwithin := Fetch.within_resolve operand pool
    rw [hresolve] at hwithin
    exact ⟨_, Fetch.encode_of_within hwithin⟩
  · intro operand target hfits
    exact Link.exists_encode_of_le operand hfits

theorem linking_fails_exactly_behind_two_sources :
    let base : Program := { sources := [[], []], constants := [] }
    let named (source : UInt8) : Program :=
      { sources := [[Instruction.zipmap.opcode, source]], constants := [] }
    LinkOptions.Admits {} base (named 6) ∧ ¬ LinkOptions.Admits {} base (named 7) := by
  refine ⟨(linking_fails_exactly_on_mismatched_shapes _ _ _).1.mp ⟨_, rfl⟩, fun h => ?_⟩
  obtain ⟨c, hc⟩ := (linking_fails_exactly_on_mismatched_shapes _ _ _).1.mpr h
  cases hc

end WordMachine
