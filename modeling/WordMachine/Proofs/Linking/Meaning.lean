import WordMachine.Linking.Combinators
import WordMachine.Proofs.Linking.Relocation

/-!
# Linking preserves meaning

Linking places the sources of both programs into the result, so what a source
does there is what it did at home.  This needs no condition on the machine, and
of the programs only that the evaluated source reaches no source that code is
merged into.

One thing does show: an instruction that is refused is reported with its
operand, and the operand of a `ZIPMAP` of the appended program is no longer the
one it had at home.

## Main definitions

* `Link.basePlacement`, `Link.appendedPlacement` — where linking places sources

## Main results

* `Link.Linked.evaluated_base`, `Link.Linked.evaluated_appended`,
  `Link.Linked.evaluated_merged` — the three kinds of sources of a linked program
* `link_preserves_meaning` — linking preserves the meaning of every source
-/

namespace WordMachine

/-- Code whose operands were changed one by one is carried, if each of its
pairs is. -/
theorem Placement.code_of_copied {pl : Placement}
    {f : UInt8 → UInt8 → Except LinkError UInt8} {code code' : Source}
    (hpair : ∀ {opcode operand operand'}, f opcode operand = .ok operand' →
      (∀ t, zipTarget? (opcode, operand) = some t → pl.Carried t) →
      pl.Pair (opcode, operand) (opcode, operand'))
    (hcopied : Link.Copied f code code')
    (hcarried : ∀ t ∈ (pairs code).filterMap zipTarget?, pl.Carried t) :
    pl.Code (pairs code) (pairs code') := by
  have hpairs := hcopied.pairs
  generalize pairs code = all at hpairs hcarried ⊢
  generalize pairs code' = all' at hpairs ⊢
  induction hpairs with
  | nil => exact .nil
  | @cons head head' rest rest' hhead _ ih =>
      obtain ⟨opcode, operand⟩ := head
      obtain ⟨opcode', operand'⟩ := head'
      obtain ⟨rfl, hoperand⟩ := hhead
      refine .cons (hpair hoperand fun t ht => hcarried t ?_) (ih fun t ht => hcarried t ?_)
      · exact List.mem_filterMap.mpr ⟨_, List.mem_cons_self, ht⟩
      · obtain ⟨pair, hmem, htarget⟩ := List.mem_filterMap.mp ht
        exact List.mem_filterMap.mpr ⟨pair, List.mem_cons_of_mem _ hmem, htarget⟩

namespace Link

variable {a b c : Program} {options : LinkOptions} {Carried : Nat → Prop}

/-! ## The base -/

/-- The sources of the base stay where they are. -/
def basePlacement (a c : Program) (Carried : Nat → Prop) : Placement where
  home := a
  host := c
  floor := []
  Carried := Carried
  place := id
  operand := id

/-- The pairs of the base are carried into a program with a longer pool. -/
theorem pair_of_pinPair {extra : List Word} (hconstants : c.constants = a.constants ++ extra)
    {opcode operand operand' : UInt8}
    (h : pinPair a.constants.length opcode operand = .ok operand')
    (hcarried : ∀ t, zipTarget? (opcode, operand) = some t → Carried t) :
    (basePlacement a c Carried).Pair (opcode, operand) (opcode, operand') := by
  rw [pinPair] at h
  split at h
  · next hconstant =>
      subst hconstant
      refine .constant fun frame => ?_
      change readConstant c.constants frame operand' = readConstant a.constants frame operand
      rw [hconstants]
      exact readConstant_of_pinArgument h extra frame
  · next hconstant =>
      cases h
      by_cases hstack : opcode = Instruction.stack.opcode
      · subst hstack
        exact .stack (Nat.zero_add _).symm
      · by_cases hzipmap : opcode = Instruction.zipmap.opcode
        · subst hzipmap
          exact .zipmap (hcarried _ (zipTarget?_eq_some_iff.mpr ⟨rfl, rfl⟩)) rfl rfl rfl rfl
        · exact .other hconstant hstack hzipmap

private theorem Linked.code_base (h : Linked a b c options) {code code' : Source}
    (hcopied : Copied (pinPair a.constants.length) code code')
    (hcarried : ∀ t ∈ (pairs code).filterMap zipTarget?, Carried t) :
    (basePlacement a c Carried).Code (pairs code) (pairs code') :=
  Placement.code_of_copied (pair_of_pinPair h.constants) hcopied hcarried

theorem Linked.sound_base (h : Linked a b c options)
    (hrange : ∀ j, Carried j → j < a.sources.length ∧ options.Outside j)
    (hclosed : ∀ i j, Carried i → a.Calls i j → Carried j) :
    (basePlacement a c Carried).Sound := by
  intro i hi
  obtain ⟨hlt, houtside⟩ := hrange i hi
  have hcode : a.sources[i]? = some a.sources[i] := List.getElem?_eq_getElem hlt
  obtain ⟨code', hcode', hcopied⟩ := h.base hcode houtside
  exact ⟨_, code', hcode, hcode', hcopied.whole, hcopied.whole',
    h.code_base hcopied fun t ht => hclosed i t hi ⟨_, hcode, ht⟩⟩

/-! ## The appended program -/

/-- The sources of the appended program that are not merged follow those of
the base. -/
def appendedPlacement (a b c : Program) (options : LinkOptions) (Carried : Nat → Prop) :
    Placement where
  home := b
  host := c
  floor := []
  Carried := Carried
  place k := a.sources.length + k - options.merged
  operand := (options.move a b).zipped

/-- The pairs of the appended program are carried, if they name no merged
source. -/
theorem pair_of_movePair (hconstants : c.constants = a.constants ++ b.constants)
    (hrange : ∀ k, Carried k → options.merged ≤ k) {source : Nat}
    {opcode operand operand' : UInt8}
    (h : (options.move a b).pair source opcode operand = .ok operand')
    (hcarried : ∀ t, zipTarget? (opcode, operand) = some t → Carried t) :
    (appendedPlacement a b c options Carried).Pair (opcode, operand) (opcode, operand') := by
  rw [Move.pair] at h
  split at h
  · next hconstant =>
      subst hconstant
      refine .constant fun frame => ?_
      change readConstant c.constants frame operand' = readConstant b.constants frame operand
      rw [hconstants]
      exact Move.readConstant_of_constant rfl rfl h frame
  · next hconstant =>
      split at h
      · next hzipmap =>
          subst hzipmap
          have htarget : Carried (Zip.decode operand).source.toNat :=
            hcarried _ (zipTarget?_eq_some_iff.mpr ⟨rfl, rfl⟩)
          obtain ⟨hzipped, hdecode, -⟩ := Move.zip_eq_ok h
          have hsource := LinkOptions.move_source_of_le (hrange _ htarget) a b
          refine .zipmap htarget ((Move.source_of_zip h).trans hsource) ?_ ?_ hzipped.symm
          · rw [hdecode]
          · rw [hdecode]
      · next hzipmap =>
          cases h
          by_cases hstack : opcode = Instruction.stack.opcode
          · subst hstack
            exact .stack (Nat.zero_add _).symm
          · exact .other hconstant hstack hzipmap

private theorem Linked.code_appended (h : Linked a b c options)
    (hrange : ∀ k, Carried k → options.merged ≤ k) {source : Nat} {code code' : Source}
    (hcopied : Copied ((options.move a b).pair source) code code')
    (hcarried : ∀ t ∈ (pairs code).filterMap zipTarget?, Carried t) :
    (appendedPlacement a b c options Carried).Code (pairs code) (pairs code') :=
  Placement.code_of_copied (pair_of_movePair h.constants hrange) hcopied hcarried

theorem Linked.sound_appended (h : Linked a b c options)
    (hrange : ∀ k, Carried k → options.merged ≤ k ∧ k < b.sources.length)
    (hclosed : ∀ i j, Carried i → b.Calls i j → Carried j) :
    (appendedPlacement a b c options Carried).Sound := by
  intro k hk
  obtain ⟨hbeyond, hlt⟩ := hrange k hk
  have hcode : b.sources[k]? = some b.sources[k] := List.getElem?_eq_getElem hlt
  obtain ⟨code', hcode', hcopied⟩ := h.appended hcode hbeyond
  exact ⟨_, code', hcode, hcode', hcopied.whole, hcopied.whole',
    h.code_appended (fun t ht => (hrange t ht).1) hcopied
      fun t ht => hclosed k t hk ⟨_, hcode, ht⟩⟩

/-! ## What sources of a linked program do -/

private theorem mapError_moved_id (x : Except Fault Workspace) :
    x.mapError (Fault.moved id) = x := by
  cases x with
  | error e => exact congrArg Except.error (Fault.moved_id e)
  | ok w => rfl

/-- A source of the base that is not merged into does what it did, if that is
true of all that it reaches. -/
theorem Linked.evaluated_base (h : Linked a b c options) {j : Nat}
    (hrange : ∀ k, k = j ∨ a.Reaches j k → k < a.sources.length ∧ options.Outside k)
    (env : Environment) (w : Workspace) : c.evaluated env j w = a.evaluated env j w := by
  have hclosed : ∀ i k, (i = j ∨ a.Reaches j i) → a.Calls i k → (k = j ∨ a.Reaches j k) := by
    rintro i k (rfl | hi) hcall
    · exact .inr (.single hcall)
    · exact .inr (hi.tail hcall)
  have heval := (h.sound_base hrange hclosed).evaluated_eq rfl env (.inl rfl) w
  exact heval.trans (mapError_moved_id _)

/-- A source of the appended program that is not merged does what it did, if
that is true of all that it reaches. -/
theorem Linked.evaluated_appended (h : Linked a b c options) {k : Nat}
    (hrange : ∀ t, t = k ∨ b.Reaches k t → options.merged ≤ t ∧ t < b.sources.length)
    (env : Environment) (w : Workspace) :
    c.evaluated env (a.sources.length + k - options.merged) w
      = (b.evaluated env k w).mapError (Fault.moved (options.move a b).zipped) := by
  have hclosed : ∀ i t, (i = k ∨ b.Reaches k i) → b.Calls i t → (t = k ∨ b.Reaches k t) := by
    rintro i t (rfl | hi) hcall
    · exact .inr (.single hcall)
    · exact .inr (hi.tail hcall)
  exact (h.sound_appended hrange hclosed).evaluated_eq rfl env (.inl rfl) w

/-- A merged source holds the code of both programs, with the base's code cut in two. -/
theorem Linked.code_merged (h : Linked a b c options) {i : Nat} (hi : i < options.merged)
    {target : Source} (htarget : a.sources[options.spliceAt + i]? = some target)
    (happended : ∀ k, b.Reaches i k → options.merged ≤ k ∧ k < b.sources.length) :
    ∃ target' code code' source, b.sources[i]? = some code ∧ isWhole code ∧
      (basePlacement a c (a.Reaches (options.spliceAt + i))).Code (pairs target) target' ∧
      (appendedPlacement a b c options (b.Reaches i)).Code (pairs code) code' ∧
      c.sources[options.spliceAt + i]? = some source ∧ isWhole source ∧
      pairs source = target'.take (options.cut i (pairs target).length) ++ code'
        ++ target'.drop (options.cut i (pairs target).length) := by
  have hlt : i < b.sources.length := Nat.lt_of_lt_of_le hi h.merged_le
  have hcode : b.sources[i]? = some b.sources[i] := List.getElem?_eq_getElem hlt
  obtain ⟨target', code', source, htargetCopied, hcodeCopied, hsource, hwhole, hpairs⟩ :=
    h.merged hi htarget hcode
  have htargetCode : (basePlacement a c (a.Reaches (options.spliceAt + i))).Code
      (pairs target) (pairs target') :=
    h.code_base htargetCopied fun t ht => .single ⟨_, htarget, ht⟩
  have hcodeCode : (appendedPlacement a b c options (b.Reaches i)).Code
      (pairs b.sources[i]) (pairs code') :=
    h.code_appended (fun t ht => (happended t ht).1) hcodeCopied
      fun t ht => .single ⟨_, hcode, ht⟩
  have hcount : (pairs target').length = (pairs target).length := htargetCode.length_eq.symm
  rw [hcount] at hpairs
  exact ⟨_, _, _, source, hcode, hcodeCopied.whole, htargetCode, hcodeCode, hsource, hwhole,
    hpairs⟩

/-- A merged source performs the base's pairs before the cut, then the appended
program's source, then the base's other pairs. -/
theorem Linked.evaluated_merged (h : Linked a b c options) {i : Nat} (hi : i < options.merged)
    {target : Source} (htarget : a.sources[options.spliceAt + i]? = some target)
    (hbase : ∀ j, a.Reaches (options.spliceAt + i) j →
      j < a.sources.length ∧ options.Outside j)
    (happended : ∀ k, b.Reaches i k → options.merged ≤ k ∧ k < b.sources.length)
    (env : Environment) (w : Workspace) :
    c.evaluated env (options.spliceAt + i) w
      = (a.performed env ((pairs target).take (options.cut i (pairs target).length)) w).bind
          fun w₁ => ((b.evaluated env i w₁).mapError
            (Fault.moved (options.move a b).zipped)).bind
              (a.performed env ((pairs target).drop (options.cut i (pairs target).length))) := by
  obtain ⟨target', code, code', source, hcode, hwholeCode, htargetCode, hcodeCode, hsource, hwhole,
    hpairs⟩ := h.code_merged hi htarget happended
  -- both programs follow the placement of what this one source reaches
  have hbaseSound := h.sound_base hbase fun _ _ hreach hcall => hreach.tail hcall
  have happendedSound := h.sound_appended happended fun _ _ hreach hcall => hreach.tail hcall
  have hbefore := fun w => (hbaseSound.performed_eq rfl env
    (List.forall₂_take (options.cut i (pairs target).length) htargetCode) w).trans
      (mapError_moved_id _)
  have hafter := fun w => (hbaseSound.performed_eq rfl env
    (List.forall₂_drop (options.cut i (pairs target).length) htargetCode) w).trans
      (mapError_moved_id _)
  have hinner := happendedSound.performed_eq rfl env hcodeCode
  simp only [basePlacement] at hbefore hafter
  simp only [appendedPlacement] at hinner
  rw [Program.evaluated_eq_performed hsource hwhole, hpairs, List.append_assoc,
    Program.performed_append, hbefore]
  congr 1
  funext w₁
  rw [Program.performed_append, hinner, Program.evaluated_eq_performed hcode hwholeCode]
  congr 1
  funext w₂
  exact hafter w₂

end Link

/-! ## The meaning of a linked program -/

/-- What is reached is named by some pair. -/
theorem Program.mem_zipTargets_of_reaches {p : Program} {i j : Nat} (h : p.Reaches i j) :
    j ∈ p.zipTargets := by
  cases h with
  | single hcall => exact Program.mem_zipTargets_iff.mpr ⟨_, hcall⟩
  | tail _ hcall => exact Program.mem_zipTargets_iff.mpr ⟨_, hcall⟩

/-- Linking preserves meaning.  Let every `ZIPMAP` name a source of its own
program, and none a source that is merged.  Then, on every workspace, a source
of the base outside the merged range does what it did, a source of the appended
program behind its merged ones does what it did, and a merged source does the
base's pairs up to the cut, the appended program's pairs and the base's other
pairs.  Faults are the same ones too, but for the operand of an appended `ZIPMAP`
that is refused for its nesting: it is the operand that linking has put there. -/
theorem link_preserves_meaning {a b c : Program} {options : LinkOptions}
    (hlink : a.link b options = .ok c)
    (hbase : ∀ t ∈ a.zipTargets, t < a.sources.length ∧ options.Outside t)
    (happended : ∀ t ∈ b.zipTargets, options.merged ≤ t ∧ t < b.sources.length)
    (env : Environment) (w : Workspace) :
    (∀ j, j < a.sources.length → options.Outside j →
      c.evaluated env j w = a.evaluated env j w) ∧
    (∀ k, options.merged ≤ k → k < b.sources.length →
      c.evaluated env (a.sources.length + k - options.merged) w
        = (b.evaluated env k w).mapError (Fault.moved (options.move a b).zipped)) ∧
    (∀ i, i < options.merged → ∃ target, a.sources[options.spliceAt + i]? = some target ∧
      c.evaluated env (options.spliceAt + i) w
        = (a.performed env ((pairs target).take (options.cut i (pairs target).length)) w).bind
            fun w₁ => ((b.evaluated env i w₁).mapError
              (Fault.moved (options.move a b).zipped)).bind
                (a.performed env
                  ((pairs target).drop (options.cut i (pairs target).length)))) := by
  have hlinked := Link.linked_of_link_eq_ok hlink
  have hbaseReach : ∀ i j, a.Reaches i j → j < a.sources.length ∧ options.Outside j :=
    fun i j hreach => hbase j (Program.mem_zipTargets_of_reaches hreach)
  have happendedReach : ∀ i k, b.Reaches i k → options.merged ≤ k ∧ k < b.sources.length :=
    fun i k hreach => happended k (Program.mem_zipTargets_of_reaches hreach)
  refine ⟨?_, ?_, ?_⟩
  · intro j hlt houtside
    refine hlinked.evaluated_base ?_ env w
    rintro k (rfl | hreach)
    · exact ⟨hlt, houtside⟩
    · exact hbaseReach j k hreach
  · intro k hbeyond hlt
    refine hlinked.evaluated_appended ?_ env w
    rintro t (rfl | hreach)
    · exact ⟨hbeyond, hlt⟩
    · exact happendedReach k t hreach
  · intro i hi
    have hlt : options.spliceAt + i < a.sources.length := by
      have hsplice := hlinked.splice_le
      omega
    refine ⟨_, List.getElem?_eq_getElem hlt, ?_⟩
    exact hlinked.evaluated_merged hi (List.getElem?_eq_getElem hlt) (hbaseReach _)
      (happendedReach _) env w

/-- Code is inserted between two pairs of the base, constants of both pools are
read, and both programs evaluate a source of their own; the one of the base
reads its argument past the pool. -/
theorem link_preserves_meaning_of_inserted :
    let a : Program := ⟨[ Combinator.code [(.constant, 0), (.constant, 1), (.zipmap, 1)],
      Combinator.code [(.constant, 2)] ], [Word.ofSmall 5, Word.ofSmall 6], 0, 0⟩
    let b : Program := ⟨[ Combinator.code [(.constant, 0), (.zipmap, 1)],
      Combinator.code [(.constant, 0x80), (.constant, 0), (.add, 2)] ], [Word.ofSmall 7], 0, 0⟩
    let c : Program := ⟨[ Combinator.code [(.constant, 0), (.constant, 2), (.zipmap, 2),
        (.constant, 1), (.zipmap, 1)],
      Combinator.code [(.constant, 0x80)],
      Combinator.code [(.constant, 0x80), (.constant, 2), (.add, 2)] ],
      [Word.ofSmall 5, Word.ofSmall 6, Word.ofSmall 7], 0, 0⟩
    let options : LinkOptions := { positions := some [2] }
    a.link b options = .ok c ∧
      (∀ t ∈ a.zipTargets, t < a.sources.length ∧ options.Outside t) ∧
      (∀ t ∈ b.zipTargets, options.merged ≤ t ∧ t < b.sources.length) ∧
      c.evaluated {} 2 ⟨[], [Word.zero], [0]⟩
        = (b.evaluated {} 1 ⟨[], [Word.zero], [0]⟩).mapError
            (Fault.moved (options.move a b).zipped) ∧
      c.evaluated {} 0 ⟨[], [], []⟩
        = (a.performed {} [(0, 0)] ⟨[], [], []⟩).bind fun w₁ =>
            ((b.evaluated {} 0 w₁).mapError (Fault.moved (options.move a b).zipped)).bind
              (a.performed {} [(0, 1), (4, 1)]) := by
  intro a b c options
  have hlink : a.link b options = .ok c := by decide
  have hbase : ∀ t ∈ a.zipTargets, t < a.sources.length ∧ options.Outside t := by decide
  have happended : ∀ t ∈ b.zipTargets, options.merged ≤ t ∧ t < b.sources.length := by decide
  obtain ⟨-, hk, -⟩ :=
    link_preserves_meaning hlink hbase happended {} ⟨[], [Word.zero], [0]⟩
  obtain ⟨-, -, hi⟩ := link_preserves_meaning hlink hbase happended {} ⟨[], [], []⟩
  obtain ⟨target, htarget, hmerged⟩ := hi 0 (by decide)
  cases htarget
  exact ⟨hlink, hbase, happended, hk 1 (by decide) (by decide), hmerged⟩

/-- The fault of an appended source does not always stay the same: a source that
evaluates itself without end is refused with its operand, which linking has
changed. -/
theorem link_renames_refused_operand :
    ¬ ∀ (a b c : Program) (options : LinkOptions), a.link b options = .ok c →
      (∀ t ∈ a.zipTargets, t < a.sources.length ∧ options.Outside t) →
      (∀ t ∈ b.zipTargets, options.merged ≤ t ∧ t < b.sources.length) →
      ∀ env w k, options.merged ≤ k → k < b.sources.length →
        c.evaluated env (a.sources.length + k - options.merged) w = b.evaluated env k w := by
  intro hsame
  let a : Program := ⟨[[], []], [], 0, 0⟩
  let b : Program := ⟨[[], Combinator.code [(.constant, 0), (.zipmap, 1)]], [Word.zero], 0, 0⟩
  let c : Program := ⟨[[], [], Combinator.code [(.constant, 0), (.zipmap, 2)]], [Word.zero], 0, 0⟩
  have hlinked : c.evaluated {} 2 ⟨[], [], []⟩ = b.evaluated {} 1 ⟨[], [], []⟩ :=
    hsame a b c {} (by decide) (by decide) (by decide) {} ⟨[], [], []⟩ 1 (by decide) (by decide)
  have hhost : c.evaluated {} 2 ⟨[], [], []⟩
      = .error (.invalidOperand ⟨.zipmap, 2, .nesting⟩) := by decide +kernel
  have hhome : b.evaluated {} 1 ⟨[], [], []⟩
      = .error (.invalidOperand ⟨.zipmap, 1, .nesting⟩) := by decide +kernel
  rw [hhost, hhome] at hlinked
  cases hlinked

end WordMachine
