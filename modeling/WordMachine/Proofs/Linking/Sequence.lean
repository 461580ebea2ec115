import WordMachine.Proofs.Linking.Meaning

/-!
# Programs one after another

A program that is shifted up the stack does above other values what it does
without them, and a program that is linked behind another one goes on from what
that one leaves.  So programs that leave one value each, linked in a row, leave
their values in order.

A merged source must not be one that `ZIPMAP` names.  For programs that succeed
this holds by itself: the merged source is the evaluated one, and an evaluation
that comes back to its own source never succeeds.

## Main definitions

* `Program.shiftedPlacement` — a program and its shifted form

## Main results

* `Program.evaluated_of_shiftStack` — a shifted program on a higher stack
* `Program.shiftStack_relocates_onto_deeper_stack` — and the frames that it leaves
* `Program.evaluated_of_link`, `Program.output_of_link` — a program linked behind another
* `linkAll_leaves_values_in_order` — linked programs leave their values in order
-/

namespace WordMachine

namespace Program

/-! ## Shifted programs -/

/-- A program stands above other values, all its sources in their places. -/
def shiftedPlacement (p shifted : Program) (floor : List Word) (Carried : Nat → Prop) :
    Placement where
  home := p
  host := shifted
  floor := floor
  Carried := Carried
  place := id
  operand := id

section

variable {p shifted : Program} {floor : List Word} {Carried : Nat → Prop}

private theorem pair_of_shiftPair (hconstants : shifted.constants = p.constants) {source : Nat}
    {opcode operand operand' : UInt8}
    (h : shiftPair floor.length source opcode operand = .ok operand')
    (hcarried : ∀ t, zipTarget? (opcode, operand) = some t → Carried t) :
    (shiftedPlacement p shifted floor Carried).Pair (opcode, operand) (opcode, operand') := by
  rw [shiftPair] at h
  split at h
  · next hstack =>
      subst hstack
      split at h
      · cases h
      · next hfits =>
          cases h
          refine .stack ?_
          change (UInt8.ofNat (operand.toNat + floor.length)).toNat
            = floor.length + operand.toNat
          rw [UInt8.toNat_ofNat']
          omega
  · next hstack =>
      cases h
      by_cases hconstant : opcode = Instruction.constant.opcode
      · subst hconstant
        refine .constant fun frame => ?_
        change readConstant shifted.constants frame operand
          = readConstant p.constants frame operand
        rw [hconstants]
      · by_cases hzipmap : opcode = Instruction.zipmap.opcode
        · subst hzipmap
          exact .zipmap (hcarried _ (zipTarget?_eq_some_iff.mpr ⟨rfl, rfl⟩)) rfl rfl rfl rfl
        · exact .other hconstant hstack hzipmap

/-- Shifting changes operands only. -/
theorem copied_of_shiftStack {offset : Nat} (h : p.shiftStack offset = .ok shifted)
    (hoffset : offset ≠ 0) :
    shifted.constants = p.constants ∧ ∀ {i code}, p.sources[i]? = some code →
      ∃ code', shifted.sources[i]? = some code' ∧
        Link.Copied (shiftPair offset i) code code' := by
  rw [shiftStack, if_neg hoffset] at h
  obtain ⟨sources, hsources, h⟩ := except_bind_eq_ok h
  cases h
  refine ⟨rfl, fun {i code} hcode => ?_⟩
  obtain ⟨code', hcode', hcopied⟩ := (Link.copied_of_mapSources hsources).2 hcode
  rw [Nat.zero_add] at hcopied
  exact ⟨code', hcode', hcopied⟩

/-- Shifting carries every source that exists, if what it calls is carried. -/
theorem sound_shifted (h : p.shiftStack floor.length = .ok shifted)
    (hfloor : floor ≠ []) (hrange : ∀ i, Carried i → i < p.sources.length)
    (hclosed : ∀ i j, Carried i → p.Calls i j → Carried j) :
    (shiftedPlacement p shifted floor Carried).Sound := by
  have hoffset : floor.length ≠ 0 := mt List.length_eq_zero_iff.mp hfloor
  obtain ⟨hconstants, hsources⟩ := copied_of_shiftStack h hoffset
  intro i hi
  have hlt : i < p.sources.length := hrange i hi
  have hcode : p.sources[i]? = some p.sources[i] := List.getElem?_eq_getElem hlt
  obtain ⟨code', hcode', hcopied⟩ := hsources hcode
  refine ⟨_, code', hcode, hcode', hcopied.whole, hcopied.whole', ?_⟩
  exact Placement.code_of_copied (pair_of_shiftPair hconstants) hcopied
    fun t ht => hclosed i t hi ⟨_, hcode, ht⟩

end

/-- Shifting carries what a source that succeeds reaches. -/
theorem sound_shifted_of_evaluated_eq_ok {p shifted : Program} {floor : List Word}
    (hshift : p.shiftStack floor.length = .ok shifted) (hfloor : floor ≠ []) {env : Environment}
    {i : Nat} {w w' : Workspace} (h : p.evaluated env i w = .ok w') :
    (shiftedPlacement p shifted floor fun k => k = i ∨ p.Reaches i k).Sound := by
  obtain ⟨code, hcode, -⟩ := source_of_evaluated_eq_ok h
  refine sound_shifted hshift hfloor ?_ ?_
  · rintro k (rfl | hreach)
    · exact (List.getElem?_eq_some_iff.mp hcode).1
    · exact (reaches_of_evaluated_eq_ok h hreach).1
  · rintro k t (rfl | hreach) hcall
    · exact .inr (.single hcall)
    · exact .inr (hreach.tail hcall)

/-- What a source does on a stack, its shifted form does above other values. -/
theorem evaluated_of_shiftStack {p shifted : Program} {floor : List Word}
    (hshift : p.shiftStack floor.length = .ok shifted) {env : Environment} {i : Nat}
    {w w' : Workspace} (h : p.evaluated env i w = .ok w') :
    shifted.evaluated env i { w with stack := floor ++ w.stack }
      = .ok { w' with stack := floor ++ w'.stack } := by
  by_cases hfloor : floor = []
  · subst hfloor
    cases hshift
    exact h
  · exact (sound_shifted_of_evaluated_eq_ok hshift hfloor h).evaluated_of_ok (.inl rfl) h

/-- A shifted program is the program moved onto a deeper stack: above as many values as it was
shifted by, every source that succeeds still succeeds, with the same values above them and the
same frames. -/
theorem shiftStack_relocates_onto_deeper_stack {p shifted : Program} {offset : Nat}
    (hshift : p.shiftStack offset = .ok shifted) {floor : List Word}
    (hfloor : floor.length = offset) {env : Environment} {i : Nat}
    {stack stack' arguments : List Word} {frames : List Nat}
    (h : (p.evaluated env i ⟨stack, arguments, frames⟩).map Workspace.stack = .ok stack') :
    shifted.evaluated env i ⟨floor ++ stack, arguments, frames⟩
      = .ok ⟨floor ++ stack', arguments, frames⟩ := by
  subst hfloor
  cases hw : p.evaluated env i ⟨stack, arguments, frames⟩ with
  | error e =>
      rw [hw] at h
      cases h
  | ok w =>
      rw [hw] at h
      cases h
      have hframes : w = ⟨w.stack, arguments, frames⟩ := frames_of_evaluated_eq_ok hw
      have hraised := evaluated_of_shiftStack hshift hw
      rw [hframes] at hraised
      exact hraised

/-- A source that `ZIPMAP` evaluates for two lanes reads the lowest value of the program. -/
theorem shiftStack_relocates_onto_deeper_stack_of_two :
    let p : Program := ⟨[ Combinator.code [(.constant, 0), (.zipmap, 0x09)],
      Combinator.code [(.constant, 0x80), (.stack, 0), (.add, 2)] ], [Word.ofSmall 7], 0, 0⟩
    let shifted : Program := ⟨[ Combinator.code [(.constant, 0), (.zipmap, 0x09)],
      Combinator.code [(.constant, 0x80), (.stack, 2), (.add, 2)] ], [Word.ofSmall 7], 0, 0⟩
    p.shiftStack 2 = .ok shifted ∧
      shifted.evaluated {} 0
          ⟨[Word.ofSmall 1, Word.ofSmall 2] ++ [Word.ofSmall 9], [Word.ofSmall 3], [0]⟩
        = .ok ⟨[Word.ofSmall 1, Word.ofSmall 2] ++ [Word.ofSmall 9, Word.ofSmall 9,
          Word.ofSmall 16], [Word.ofSmall 3], [0]⟩ := by
  intro p shifted
  have hshift : p.shiftStack 2 = .ok shifted := by decide
  have hlow : (p.evaluated {} 0 ⟨[Word.ofSmall 9], [Word.ofSmall 3], [0]⟩).map Workspace.stack
      = .ok [Word.ofSmall 9, Word.ofSmall 9, Word.ofSmall 16] := by decide +kernel
  exact ⟨hshift, shiftStack_relocates_onto_deeper_stack hshift rfl hlow⟩

/-! ## Programs in a row -/

section

variable {a b c : Program} {env : Environment}

/-- A program that is linked behind another one goes on from what that one
leaves. -/
theorem evaluated_of_link (hlink : a.link b = .ok c) {w w' : Workspace}
    (ha : a.evaluated env 0 w = .ok w')
    (hb : ∀ k, b.Reaches 0 k → 1 ≤ k ∧ k < b.sources.length) :
    c.evaluated env 0 w = (b.evaluated env 0 w').mapError
      (Fault.moved (LinkOptions.move {} a b).zipped) := by
  obtain ⟨target, htarget, hwhole⟩ := source_of_evaluated_eq_ok ha
  have hbase : ∀ j, a.Reaches 0 j → j < a.sources.length ∧ LinkOptions.Outside {} j := by
    intro j hreach
    obtain ⟨hlt, hne⟩ := reaches_of_evaluated_eq_ok ha hreach
    exact ⟨hlt, .inr (Nat.pos_of_ne_zero hne)⟩
  have hmerged := (Link.linked_of_link_eq_ok hlink).evaluated_merged Nat.zero_lt_one htarget
    hbase hb env w
  -- without positions, the pairs of the base all come first
  have hcut : LinkOptions.cut {} 0 (pairs target).length = (pairs target).length := rfl
  rw [hcut, List.take_length, List.drop_length, ← evaluated_eq_performed htarget hwhole, ha]
    at hmerged
  have hnothing : ∀ x : Except Fault Workspace, x.bind (a.performed env []) = x := by
    intro x
    cases x with
    | error e => rfl
    | ok w => exact performed_nil a env w
  exact hmerged.trans (hnothing _)

/-- The same for programs that are run. -/
theorem output_of_link (hlink : a.link b = .ok c) {values : List Word}
    (ha : a.output env = .ok values)
    (hb : ∀ k, b.Reaches 0 k → 1 ≤ k ∧ k < b.sources.length) :
    c.output env = ((b.evaluated env 0 ⟨values, [], []⟩).mapError
      (Fault.moved (LinkOptions.move {} a b).zipped)).map Workspace.stack := by
  rw [output_eq_evaluated, evaluated_of_link hlink (output_eq_ok_iff.mp ha) hb]

/-- A program that succeeds from what another one leaves succeeds behind it. -/
theorem output_of_link_eq_ok (hlink : a.link b = .ok c) {values values' : List Word}
    (ha : a.output env = .ok values)
    (hb : b.evaluated env 0 ⟨values, [], []⟩ = .ok ⟨values', [], []⟩) :
    c.output env = .ok values' := by
  have hreach : ∀ k, b.Reaches 0 k → 1 ≤ k ∧ k < b.sources.length := by
    intro k hreach
    obtain ⟨hlt, hne⟩ := reaches_of_evaluated_eq_ok hb hreach
    exact ⟨Nat.pos_of_ne_zero hne, hlt⟩
  rw [output_of_link hlink ha hreach, hb]
  rfl

end

/-- Each further program adds its value on top. -/
theorem output_of_linkAfter {env : Environment} {rest : List Program} {values : List Word}
    (hrest : List.Forall₂ (fun q v => q.output env = .ok [v]) rest values)
    {combined p : Program} {below : List Word} (hcombined : combined.output env = .ok below)
    (h : combined.linkAfter true below.length rest = .ok p) :
    p.output env = .ok (below ++ values) := by
  induction hrest generalizing combined below with
  | nil =>
      cases h
      rw [List.append_nil, hcombined]
  | @cons q v rest values hq _ ih =>
      obtain ⟨shifted, hshift, h⟩ := except_bind_eq_ok h
      obtain ⟨next, hnext, h⟩ := except_bind_eq_ok h
      -- on the values so far, the shifted program adds the value of the program alone
      have hraised := evaluated_of_shiftStack hshift (output_eq_ok_iff.mp hq)
      dsimp only at hraised
      rw [List.append_nil] at hraised
      have hout : next.output env = .ok (below ++ [v]) :=
        output_of_link_eq_ok hnext hcombined hraised
      have hlength : below.length + 1 = (below ++ [v]).length := by simp
      rw [hlength] at h
      have hall := ih hout h
      rwa [List.append_assoc, List.singleton_append] at hall

/-- Linking two programs is linking a list of two. -/
theorem linkPair_eq_linkAll (a b : Program) (reassign : Bool) :
    a.linkPair b reassign = linkAll [a, b] reassign := by
  have hlast : ∀ x : Except LinkError Program, x >>= Except.ok = x := fun x => bind_pure x
  simp only [linkPair, linkAll, linkAfter, hlast]

/-- Linked programs leave their values in order. -/
theorem output_of_linkAll {env : Environment} {programs : List Program} {values : List Word}
    (hruns : List.Forall₂ (fun q v => q.output env = .ok [v]) programs values) {p : Program}
    (hlink : linkAll programs true = .ok p) : p.output env = .ok values := by
  cases hruns with
  | nil => cases hlink
  | cons hfirst hrest => exact output_of_linkAfter hrest hfirst hlink

end Program

/-- Let every program of a list leave one value when it is run alone.  Then the
programs linked together leave these values, the first one lowest.  Linking a
pair is the case of two programs. -/
theorem linkAll_leaves_values_in_order {env : Environment} {programs : List Program}
    {values : List Word}
    (hruns : List.Forall₂ (fun q v => q.output env = .ok [v]) programs values) :
    (∀ p, Program.linkAll programs true = .ok p → p.output env = .ok values) ∧
    (∀ a b p, programs = [a, b] → a.linkPair b true = .ok p → p.output env = .ok values) := by
  constructor
  · intro p hlink
    exact Program.output_of_linkAll hruns hlink
  · rintro a b p rfl hpair
    rw [Program.linkPair_eq_linkAll] at hpair
    exact Program.output_of_linkAll hruns hpair

/-- Three programs, the middle one with a source that `ZIPMAP` evaluates and the
last one with a read of its own stack. -/
theorem linkAll_leaves_values_in_order_of_three :
    let first := Combinator.value (Word.ofSmall 5)
    let second : Program := ⟨[ Combinator.code [(.constant, 0), (.zipmap, 1)],
      Combinator.code [(.constant, 0x80), (.constant, 0), (.add, 2)] ], [Word.ofSmall 7], 0, 0⟩
    let third : Program :=
      ⟨[Combinator.code [(.constant, 0), (.stack, 0), (.mul, 2)]], [Word.ofSmall 3], 0, 0⟩
    let all : Program := ⟨[ Combinator.code [(.constant, 0), (.constant, 1), (.zipmap, 1),
        (.constant, 2), (.stack, 2), (.mul, 2)],
      Combinator.code [(.constant, 0x80), (.constant, 1), (.add, 2)] ],
      [Word.ofSmall 5, Word.ofSmall 7, Word.ofSmall 3], 1, 0⟩
    Program.linkAll [first, second, third] true = .ok all ∧
      all.output {} = .ok [Word.ofSmall 5, Word.ofSmall 14, Word.ofSmall 9] := by
  intro first second third all
  have hlink : Program.linkAll [first, second, third] true = .ok all := by decide
  have hfirst : first.output {} = .ok [Word.ofSmall 5] := by decide
  have hsecond : second.output {} = .ok [Word.ofSmall 14] := by decide
  have hthird : third.output {} = .ok [Word.ofSmall 9] := by decide
  have hruns : List.Forall₂ (fun (q : Program) v => q.output {} = .ok [v])
      [first, second, third] [Word.ofSmall 5, Word.ofSmall 14, Word.ofSmall 9] :=
    .cons hfirst (.cons hsecond (.cons hthird .nil))
  exact ⟨hlink, (linkAll_leaves_values_in_order hruns).1 all hlink⟩

end WordMachine
