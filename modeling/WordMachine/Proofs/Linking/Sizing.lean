import WordMachine.Proofs.Evaluation.Lockstep
import WordMachine.Proofs.Linking.Sequence

/-!
# Room for linked programs

The hints of a program say how many values its stack and its frames are to hold.  Linking adds
the hints up.  This is enough: below the values of the appended program lie only those that the
base has left, and the base's hint allows for them.

Where the very first pair of a program fails, no room is needed, and linking does not change
that.

## Main definitions

* `Program.Stays` — no moment of an evaluation has more values than a bound allows
* `Program.Covers` — the hints allow for every moment of a run
* `Program.Sized`, `Program.Fitted` — a program that leaves values, or one value, with hints
  that cover its run
* `Program.HintsFit`, `Program.HintsAdd` — hints that are added up
* `Program.Begins` — the first pair of a program

## Main results

* `Program.Stays.link`, `Program.Stays.shiftStack` — linked and shifted programs
* `Program.sized_of_linkAll` — programs in a row
* `Program.Begins.linkAll`, `Program.Begins.covers` — programs that fail at once
-/

namespace WordMachine

/-- The steps lead to one end only. -/
theorem Config.Leads.unique {table : Table} {env : Environment} {c d e : Config}
    (hd : Leads table env c d) (he : Leads table env c e) (hdone : d.tasks = [])
    (hdone' : e.tasks = []) : d = e := by
  obtain ⟨n, rfl⟩ := hd
  obtain ⟨k, rfl⟩ := he
  -- both are where `n + k` steps lead
  calc (step table env)^[n] c
      = (step table env)^[k] ((step table env)^[n] c) := (iterate_of_done hdone k).symm
    _ = (step table env)^[n] ((step table env)^[k] c) := by
        rw [← Function.iterate_add_apply, ← Function.iterate_add_apply, Nat.add_comm]
    _ = (step table env)^[k] c := iterate_of_done hdone' n

namespace Program

/-! ## Evaluations of the first source -/

/-- From the evaluation of the first source on a workspace on, the stack holds at most `S` values
and the frames at most `A`. -/
def Stays (p : Program) (env : Environment) (w : Workspace) (S A : Nat) : Prop :=
  Config.Stays env S A (.start 0 (p.machine w))

section

variable {p : Program} {env : Environment} {w w' : Workspace} {S A : Nat} {code : Source}

private theorem Stays.mono {S' A' : Nat} (h : p.Stays env w S A) (hS : S ≤ S') (hA : A ≤ A') :
    p.Stays env w S' A' :=
  Config.Stays.mono h hS hA

private theorem step_start (hcode : p.sources[0]? = some code) (hwhole : isWhole code)
    (env : Environment) (w : Workspace) :
    Config.step Table.standard env (.start 0 (p.machine w))
      = ⟨[.pairs (pairs code)], .ok (), p.machine w⟩ := by
  refine (Config.step_source Table.standard env [] (p.machine w) 0).trans ?_
  simp only [sources_machine, hcode, hwhole, if_true]

/-- An evaluation needs the room that its pairs need. -/
theorem stays_iff (hcode : p.sources[0]? = some code) (hwhole : isWhole code) :
    p.Stays env w S A
      ↔ Config.Stays env S A ⟨[.pairs (pairs code)], .ok (), p.machine w⟩ := by
  constructor
  · intro h
    have hstep := Config.Stays.step h
    rwa [step_start hcode hwhole env w] at hstep
  · intro h
    exact Config.stays_source hcode hwhole h.within h

/-- An evaluation that succeeds leads to its end. -/
theorem leads_of_evaluated_eq_ok (h : p.evaluated env 0 w = .ok w') :
    Config.Leads Table.standard env (.start 0 (p.machine w)) ⟨[], .ok (), p.machine w'⟩ := by
  have hkeeps := Evaluation.keepsRest_nested Table.keepsRest_standard env (maxDepth - w.depth) 0
  obtain ⟨hresult, hmachine⟩ := machine_of_ending_eq_ok hkeeps h
  have hleads : Config.Leads Table.standard env (.start 0 (p.machine w))
      ((Evaluation.nested Table.standard env (maxDepth - w.depth) 0 (p.machine w)).config []) :=
    Config.leads_evaluate (Table.keeps_standard _) 0 (p.machine w)
  rwa [Outcome.config, hresult, hmachine] at hleads

end

/-! ## Linked and shifted programs -/

section

variable {a b c p shifted : Program} {env : Environment} {w w' : Workspace} {S A : Nat}

/-- A program that is linked behind another one goes on in the room that is left. -/
theorem Stays.link (hlink : a.link b = .ok c) (hok : a.evaluated env 0 w = .ok w')
    (hreach : ∀ k, b.Reaches 0 k → 1 ≤ k ∧ k < b.sources.length) (ha : a.Stays env w S A)
    (hb : b.Stays env w' S A) : c.Stays env w S A := by
  have hlinked := Link.linked_of_link_eq_ok hlink
  obtain ⟨target, htarget, hwhole⟩ := source_of_evaluated_eq_ok hok
  have hbase : ∀ j, a.Reaches 0 j → j < a.sources.length ∧ LinkOptions.Outside {} j := by
    intro j hj
    obtain ⟨hlt, hne⟩ := reaches_of_evaluated_eq_ok hok hj
    exact ⟨hlt, .inr (Nat.pos_of_ne_zero hne)⟩
  have hbaseSound := hlinked.sound_base hbase fun _ _ hj hcall => hj.tail hcall
  have happendedSound := hlinked.sound_appended hreach fun _ _ hk hcall => hk.tail hcall
  obtain ⟨target', code, code', source, hcode, hwholeCode, htargetCode, hcodeCode, hsource,
    hwholeSource, hpairs⟩ := hlinked.code_merged Nat.zero_lt_one htarget hreach
  -- without positions, the code of the base all comes first
  have hjoined : pairs source = target' ++ code' := by
    have hcut : LinkOptions.cut {} 0 (pairs target).length = target'.length :=
      htargetCode.length_eq
    rw [hpairs, hcut, List.take_length, List.drop_length, List.append_nil]
  have hstart := step_start htarget hwhole env w
  rw [stays_iff htarget hwhole] at ha
  rw [stays_iff hcode hwholeCode] at hb
  rw [stays_iff hsource hwholeSource, hjoined]
  refine Placement.Alongside.stays env hbaseSound (.intro (.last htargetCode) ?_) ha (.inl rfl)
    (Nat.le_of_eq (Nat.zero_add S)) fun m m' hosts hleads => ?_
  · exact Placement.Hosts.machine _ w
  · -- where the base is done, the appended program begins on what it has left
    obtain rfl : m = a.machine w' := by
      have hend := ((Config.Leads.of_step hstart).trans hleads).trans (.of_step rfl)
      exact congrArg Config.machine (hend.unique (leads_of_evaluated_eq_ok hok) rfl rfl)
    have hosts' : (Link.appendedPlacement a b c {} (b.Reaches 0)).Hosts (b.machine w') m' :=
      ⟨rfl, rfl, hosts.hostConstants, hosts.hostSources, hosts.stack, hosts.arguments,
        hosts.frames⟩
    have halone : (Link.appendedPlacement a b c {} (b.Reaches 0)).Alongside []
        ⟨[.pairs (pairs code)], .ok (), b.machine w'⟩ ⟨[.pairs (code' ++ [])], .ok (), m'⟩ :=
      .intro (.last hcodeCode) hosts'
    rw [List.append_nil] at halone
    exact halone.stays_alone env happendedSound hb (.inl rfl) (Nat.le_of_eq (Nat.zero_add S))

/-- A program that succeeds needs its room above the values that it is shifted up by. -/
theorem Stays.shiftStack {floor : List Word} (hshift : p.shiftStack floor.length = .ok shifted)
    (hok : p.evaluated env 0 w = .ok w') (h : p.Stays env w S A) :
    shifted.Stays env { w with stack := floor ++ w.stack } (floor.length + S) A := by
  by_cases hfloor : floor = []
  · subst hfloor
    cases hshift
    exact h.mono (Nat.le_add_left S _) (Nat.le_refl A)
  · have hsound : (shiftedPlacement p shifted floor fun k => k = 0 ∨ p.Reaches 0 k).Sound :=
      sound_shifted_of_evaluated_eq_ok hshift hfloor hok
    obtain ⟨code, code', hcode, hcode', hwhole, hwhole', hpairs⟩ := hsound 0 (.inl rfl)
    have hstart := step_start hcode hwhole env w
    have hsucceeds : Config.Succeeds Table.standard env
        ⟨[.pairs (pairs code)], .ok (), p.machine w⟩ :=
      Config.Succeeds.of_leads ⟨_, leads_of_evaluated_eq_ok hok⟩ (.of_step hstart)
    have halone : (shiftedPlacement p shifted floor fun k => k = 0 ∨ p.Reaches 0 k).Alongside []
        ⟨[.pairs (pairs code)], .ok (), p.machine w⟩
        ⟨[.pairs (pairs code' ++ [])], .ok (),
          shifted.machine { w with stack := floor ++ w.stack }⟩ :=
      .intro (.last hpairs) (Placement.Hosts.machine _ w)
    rw [List.append_nil] at halone
    refine (stays_iff hcode' hwhole').mpr ?_
    exact halone.stays_alone env hsound ((stays_iff hcode hwhole).mp h) (.inr hsucceeds)
      (Nat.le_refl _)

end

/-! ## Hints -/

/-- The hints allow for every moment of a run from the first source: the stack never holds more
values than the one says, and the frames never more than the other says. -/
def Covers (p : Program) (env : Environment) : Prop :=
  Config.Stays env p.stackLength.toNat p.argumentsLength.toNat (.start 0 (Machine.ofProgram p))

/-- A program that leaves values when it is run, with hints that cover its run. -/
structure Sized (p : Program) (env : Environment) (values : List Word) : Prop where
  output : p.output env = .ok values
  covers : p.Covers env

/-- A program that leaves one value when it is run, with hints that cover its run. -/
def Fitted (p : Program) (env : Environment) : Prop := ∃ v, p.Sized env [v]

/-- The hints for the stacks of programs, added up. -/
def stackHints : List Program → Nat
  | [] => 0
  | p :: rest => p.stackLength.toNat + stackHints rest

/-- The hints for the frames of programs, added up. -/
def argumentHints : List Program → Nat
  | [] => 0
  | p :: rest => p.argumentsLength.toNat + argumentHints rest

/-- The hints of programs, with a further number for each kind, add up within 64 bits. -/
structure HintsFit (programs : List Program) (s t : Nat) : Prop where
  stack : stackHints programs + s < UInt64.size
  arguments : argumentHints programs + t < UInt64.size

/-- The hints of a program are those of other programs, added up. -/
structure HintsAdd (p : Program) (programs : List Program) : Prop where
  stack : p.stackLength.toNat = stackHints programs
  arguments : p.argumentsLength.toNat = argumentHints programs

@[simp] theorem stackHints_nil : stackHints [] = 0 := rfl

@[simp] theorem stackHints_cons (p : Program) (programs : List Program) :
    stackHints (p :: programs) = p.stackLength.toNat + stackHints programs := rfl

@[simp] theorem argumentHints_nil : argumentHints [] = 0 := rfl

@[simp] theorem argumentHints_cons (p : Program) (programs : List Program) :
    argumentHints (p :: programs) = p.argumentsLength.toNat + argumentHints programs := rfl

section

variable {a b c p shifted : Program} {env : Environment} {values : List Word}

theorem Fitted.covers (h : p.Fitted env) : p.Covers env := by
  obtain ⟨v, hv⟩ := h
  exact hv.covers

/-- A program with the hints of another one has the hints that these were added up from. -/
theorem HintsAdd.trans {programs : List Program} (h : c.HintsAdd [p])
    (hp : p.HintsAdd programs) : c.HintsAdd programs := by
  constructor
  · rw [← hp.stack]
    simpa using h.stack
  · rw [← hp.arguments]
    simpa using h.arguments

/-- The values that are left are among those that the hint allows for. -/
theorem Sized.length_le (h : p.Sized env values) : values.length ≤ p.stackLength.toNat := by
  have hend := Config.Stays.of_leads h.covers
    (leads_of_evaluated_eq_ok (output_eq_ok_iff.mp h.output))
  exact hend.within.stack

/-- Linking adds hints up. -/
theorem HintsAdd.link (hlink : a.link b = .ok c) (hfits : HintsFit [a, b] 0 0) :
    c.HintsAdd [a, b] := by
  obtain ⟨_, -, hlink⟩ := except_bind_eq_ok hlink
  obtain ⟨_, -, hlink⟩ := except_bind_eq_ok hlink
  obtain ⟨_, -, hlink⟩ := except_bind_eq_ok hlink
  obtain ⟨_, -, hlink⟩ := except_bind_eq_ok hlink
  cases hlink
  have hstack := hfits.stack
  have harguments := hfits.arguments
  simp only [stackHints_cons, stackHints_nil, argumentHints_cons, argumentHints_nil]
    at hstack harguments
  constructor
  · simp only [stackHints_cons, stackHints_nil, UInt64.toNat_add]
    exact Nat.mod_eq_of_lt hstack
  · simp only [argumentHints_cons, argumentHints_nil, UInt64.toNat_add]
    exact Nat.mod_eq_of_lt harguments

/-- Shifting keeps hints. -/
theorem hints_of_shiftStack {offset : Nat} (h : p.shiftStack offset = .ok shifted) :
    shifted.stackLength = p.stackLength ∧ shifted.argumentsLength = p.argumentsLength := by
  rw [shiftStack] at h
  split at h
  · cases h
    exact ⟨rfl, rfl⟩
  · obtain ⟨sources, -, h⟩ := except_bind_eq_ok h
    cases h
    exact ⟨rfl, rfl⟩

/-- The hints of both programs cover the run of a program linked behind another one, if they
allow for it to go on from what that one leaves. -/
theorem Sized.covers_of_link (ha : a.Sized env values) (hlink : a.link b = .ok c)
    (hfits : HintsFit [a, b] 0 0) (hreach : ∀ k, b.Reaches 0 k → 1 ≤ k ∧ k < b.sources.length)
    (hb : b.Stays env ⟨values, [], []⟩ (a.stackLength.toNat + b.stackLength.toNat)
      (a.argumentsLength.toNat + b.argumentsLength.toNat)) : c.Covers env := by
  obtain ⟨hstack, harguments⟩ := HintsAdd.link hlink hfits
  simp only [stackHints_cons, stackHints_nil, argumentHints_cons, argumentHints_nil, Nat.add_zero]
    at hstack harguments
  have hbase : a.Stays env ⟨[], [], []⟩ (a.stackLength.toNat + b.stackLength.toNat)
      (a.argumentsLength.toNat + b.argumentsLength.toNat) :=
    Config.Stays.mono ha.covers (Nat.le_add_right _ _) (Nat.le_add_right _ _)
  rw [Covers, hstack, harguments]
  exact Stays.link hlink (output_eq_ok_iff.mp ha.output) hreach hbase hb

theorem Sized.link (ha : a.Sized env values) (hlink : a.link b = .ok c)
    (hfits : HintsFit [a, b] 0 0) {values' : List Word}
    (hok : b.evaluated env 0 ⟨values, [], []⟩ = .ok ⟨values', [], []⟩)
    (hb : b.Stays env ⟨values, [], []⟩ (a.stackLength.toNat + b.stackLength.toNat)
      (a.argumentsLength.toNat + b.argumentsLength.toNat)) : c.Sized env values' := by
  refine ⟨output_of_link_eq_ok hlink ha.output hok, ha.covers_of_link hlink hfits ?_ hb⟩
  intro k hreach
  obtain ⟨hlt, hne⟩ := reaches_of_evaluated_eq_ok hok hreach
  exact ⟨Nat.pos_of_ne_zero hne, hlt⟩

end

/-! ## Programs in a row -/

section

variable {env : Environment} {rest programs : List Program} {values : List Word} {p : Program}

/-- One program more, shifted up by the values so far. -/
theorem Sized.linkShifted {combined q shifted next : Program} {below : List Word} {v : Word}
    (hcombined : combined.Sized env below) (hq : q.Sized env [v])
    (hshift : q.shiftStack below.length = .ok shifted) (hnext : combined.link shifted = .ok next)
    (hfits : HintsFit [combined, q] 0 0) :
    next.Sized env (below ++ [v]) ∧ next.HintsAdd [combined, q] := by
  obtain ⟨hstack, harguments⟩ := hints_of_shiftStack hshift
  have hq' := output_eq_ok_iff.mp hq.output
  have hraised := evaluated_of_shiftStack hshift hq'
  have hstays := Stays.shiftStack hshift hq' hq.covers
  simp only [List.append_nil] at hraised hstays
  have hfits' : HintsFit [combined, shifted] 0 0 := by
    constructor
    · simpa [hstack] using hfits.stack
    · simpa [harguments] using hfits.arguments
  constructor
  · refine hcombined.link hnext hfits' hraised (hstays.mono ?_ ?_)
    · rw [hstack]
      exact Nat.add_le_add_right hcombined.length_le _
    · rw [harguments]
      exact Nat.le_add_left _ _
  · obtain ⟨hstack', harguments'⟩ := HintsAdd.link hnext hfits'
    constructor
    · simpa [hstack] using hstack'
    · simpa [harguments] using harguments'

section

variable {a b c q : Program} {s t : Nat}

/-- The hints of two programs are not more than those of all. -/
theorem HintsFit.pair (h : HintsFit (a :: b :: rest) s t) : HintsFit [a, b] 0 0 := by
  obtain ⟨hstack, harguments⟩ := h
  simp only [stackHints_cons, argumentHints_cons] at hstack harguments
  constructor
  · simp only [stackHints_cons, stackHints_nil]
    omega
  · simp only [argumentHints_cons, argumentHints_nil]
    omega

/-- Two programs may be replaced by one that has the hints of both. -/
theorem HintsFit.join (h : HintsFit (a :: b :: rest) s t) (hc : c.HintsAdd [a, b]) :
    HintsFit (c :: rest) s t := by
  constructor
  · simpa [hc.stack, Nat.add_assoc] using h.stack
  · simpa [hc.arguments, Nat.add_assoc] using h.arguments

private theorem HintsAdd.split (h : q.HintsAdd (c :: rest)) (hc : c.HintsAdd [a, b]) :
    q.HintsAdd (a :: b :: rest) := by
  constructor
  · simp [h.stack, hc.stack, Nat.add_assoc]
  · simp [h.arguments, hc.arguments, Nat.add_assoc]

end

private theorem sized_of_linkAfter (hrest : List.Forall₂ (fun q v => q.Sized env [v]) rest values)
    {combined : Program} {below : List Word} (hcombined : combined.Sized env below)
    (hfits : HintsFit (combined :: rest) 0 0)
    (h : combined.linkAfter true below.length rest = .ok p) :
    p.Sized env (below ++ values) ∧ p.HintsAdd (combined :: rest) := by
  induction hrest generalizing combined below with
  | nil =>
      cases h
      rw [List.append_nil]
      exact ⟨hcombined, by simp, by simp⟩
  | @cons q v rest values hq _ ih =>
      obtain ⟨shifted, hshift, h⟩ := except_bind_eq_ok h
      obtain ⟨next, hnext, h⟩ := except_bind_eq_ok h
      obtain ⟨hsized, hhints⟩ := hcombined.linkShifted hq hshift hnext hfits.pair
      have hlength : below.length + 1 = (below ++ [v]).length := by simp
      rw [hlength] at h
      obtain ⟨hall, hhints'⟩ := ih hsized (hfits.join hhints) h
      rw [List.append_assoc, List.singleton_append] at hall
      exact ⟨hall, hhints'.split hhints⟩

/-- Programs that leave one value each leave some values. -/
theorem exists_sized_of_fitted (h : ∀ q ∈ programs, q.Fitted env) :
    ∃ values, List.Forall₂ (fun (q : Program) v => q.Sized env [v]) programs values := by
  induction programs with
  | nil => exact ⟨[], .nil⟩
  | cons q rest ih =>
      obtain ⟨⟨v, hv⟩, hrest⟩ := List.forall_mem_cons.mp h
      obtain ⟨values, hvalues⟩ := ih hrest
      exact ⟨v :: values, .cons hv hvalues⟩

theorem output_of_sized
    (h : List.Forall₂ (fun (q : Program) v => q.Sized env [v]) programs values) :
    List.Forall₂ (fun (q : Program) v => q.output env = .ok [v]) programs values :=
  h.imp fun _ _ hq => hq.output

/-- Programs in a row need the room of all of them. -/
theorem sized_of_linkAll (hall : List.Forall₂ (fun q v => q.Sized env [v]) programs values)
    (hfits : HintsFit programs 0 0) (h : linkAll programs true = .ok p) :
    p.Sized env values ∧ p.HintsAdd programs := by
  cases hall with
  | nil => cases h
  | cons hfirst hrest => exact sized_of_linkAfter hrest hfirst hfits h

end

/-! ## Programs that fail at once -/

/-- The first source of a program begins with a pair. -/
def Begins (p : Program) (head : UInt8 × UInt8) : Prop :=
  ∃ code rest, p.sources[0]? = some code ∧ isWhole code ∧ pairs code = head :: rest

namespace Begins

variable {a b c p : Program} {head : UInt8 × UInt8} {env : Environment}

/-- Linking keeps the first pair of the base, unless it reads a constant. -/
theorem link (h : a.Begins head) (hhead : head.1 ≠ Instruction.constant.opcode)
    (hlink : a.link b = .ok c) : c.Begins head := by
  have hlinked := Link.linked_of_link_eq_ok hlink
  obtain ⟨target, rest, htarget, -, hpairs⟩ := h
  obtain ⟨code, hcode⟩ : ∃ code, b.sources[0]? = some code :=
    ⟨_, List.getElem?_eq_getElem hlinked.merged_le⟩
  obtain ⟨target', code', source, hcopied, -, hsource, hwhole, hmerged⟩ :=
    hlinked.merged Nat.zero_lt_one htarget hcode
  have hchanged := hcopied.pairs
  rw [hpairs] at hchanged
  obtain ⟨head', rest', ⟨hopcode, hoperand⟩, -, htarget'⟩ := List.forall₂_cons_left_iff.mp hchanged
  rw [Link.pinPair, if_neg hhead] at hoperand
  obtain rfl : head' = head := Prod.ext hopcode (Except.ok.inj hoperand).symm
  -- without positions, the code of the base comes first
  have hcut : LinkOptions.cut {} 0 (pairs target').length = (pairs target').length := rfl
  rw [hcut, List.take_length, htarget'] at hmerged
  exact ⟨source, _, hsource, hwhole, hmerged⟩

theorem linkAfter (hhead : head.1 ≠ Instruction.constant.opcode) {rest : List Program}
    {offset : Nat} (h : a.Begins head) (hlink : a.linkAfter true offset rest = .ok p) :
    p.Begins head := by
  induction rest generalizing a offset with
  | nil =>
      cases hlink
      exact h
  | cons q rest ih =>
      obtain ⟨shifted, -, hlink⟩ := except_bind_eq_ok hlink
      obtain ⟨next, hnext, hlink⟩ := except_bind_eq_ok hlink
      exact ih (h.link hhead hnext) hlink

/-- A program whose first pair fails needs no room. -/
theorem covers (h : p.Begins head) (hzipmap : head.1 ≠ Instruction.zipmap.opcode)
    (hfails : ∀ m, (Evaluation.pair Table.standard env none head.1 head.2 m).result ≠ .ok ()) :
    p.Covers env := by
  obtain ⟨code, rest, hcode, hwhole, hpairs⟩ := h
  refine (stays_iff (w := ⟨[], [], []⟩) hcode hwhole).mpr ?_
  rw [hpairs]
  refine Config.stays_pair hzipmap ⟨Nat.zero_le _, Nat.zero_le _⟩ fun hok => ?_
  exact absurd hok (hfails _)

end Begins

end Program

end WordMachine
