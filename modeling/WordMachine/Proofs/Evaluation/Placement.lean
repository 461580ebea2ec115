import Mathlib.Data.List.Forall2
import WordMachine.Proofs.Evaluation.Workspace

/-!
# Code that is carried from one program into another

A `Placement` says how sources of a program, its home, live on inside another
program, the host: where each carried source went, and which values lie on the
stack below those of the home.  Pairs are carried when each operand still
means the same thing in the host.  Then an evaluation in the host follows the
one at home step by step.  Sources that are not carried impose nothing, so a
placement only has to account for what an evaluation can reach.

Values below the home's own may keep an instruction from running out of
values, so faults correspond only when there are none.

## Main definitions

* `Placement`, `Placement.Pair`, `Placement.Sound` — placements and carried code
* `Placement.Follows` — one action follows another

## Main results

* `Placement.Sound.follows_nested` — carried sources are followed, at any
  nesting
* `Placement.Sound.performed_of_ok`, `Placement.Sound.performed_eq` — the effect
  of carried code on workspaces
-/

namespace WordMachine

/-! ## Reading constants -/

/-- What a `CONSTANT` operand reads from a pool and an argument frame. -/
def readConstant (pool frame : List Word) (operand : UInt8) : Except Fault Word :=
  match Fetch.resolve operand pool.length with
  | .constant i => Machine.fetch pool i.toUInt64
  | .argument i => Machine.fetch frame i.toUInt64

namespace Action

variable {α β : Type}

/-- Looking at the machine hands over a view and changes nothing. -/
theorem look_bind (view : Machine → α) (next : α → Action β) (m : Machine) :
    (look view >>= next) m = next (view m) m := by
  have hlook : look view m = ⟨.ok (view m), m, []⟩ := rfl
  rw [bind_apply_ok hlook]
  rfl

theorem fetchConstant_apply (operand : UInt8) (m : Machine) :
    fetchConstant operand m
      = (ofExcept (readConstant m.constants m.currentFrame operand) >>= push) m := by
  rw [fetchConstant, look_bind]
  rfl

theorem copyStack_apply (operand : UInt8) (m : Machine) :
    copyStack operand m = (ofExcept (m.stackAt operand.toUInt64) >>= push) m := by
  rw [copyStack, look_bind]

/-- What `ZIPMAP` checks before it takes values. -/
theorem zipmap_apply (evaluate : Nat → Action Unit) (operand : UInt8) (m : Machine) :
    zipmap (some evaluate) operand m
      = if maxDepth ≤ m.depth then
          fail (.invalidOperand ⟨.zipmap, operand, .nesting⟩) m
        else if m.sources.length ≤ (Zip.decode operand).source.toNat then
          fail (.invalidSource (Zip.decode operand).source.toNat m.sources.length) m
        else
          (do
            let values ← popMany (Zip.decode operand).valueCount
            zipLanes evaluate (Zip.decode operand) values
              (List.range (Zip.decode operand).lanes)) m := by
  rw [zipmap, look_bind]
  dsimp only
  split
  · rfl
  · rw [look_bind]
    split <;> rfl

theorem zipmap_none_apply (operand : UInt8) (m : Machine) :
    zipmap none operand m = fail (.invalidOperand ⟨.zipmap, operand, .nesting⟩) m := by
  rw [zipmap, look_bind]

/-- The values that the frame of one lane holds. -/
def laneValues (zip : Zip) (values : List Word) (lane : Nat) : List Word :=
  values.map fun v => laneSlice v lane zip.lanes zip.laneBits

/-- Apart from a warning, the evaluation for a lane is an evaluation in a frame
of its own. -/
theorem zipLane_eq_inFrame (evaluate : Nat → Action Unit) (zip : Zip) (values : List Word)
    (lane : Nat) (m : Machine) :
    (zipLane evaluate zip values lane m).result
        = (inFrame (laneValues zip values lane) (evaluate zip.source.toNat) m).result ∧
      (zipLane evaluate zip values lane m).machine
        = (inFrame (laneValues zip values lane) (evaluate zip.source.toNat) m).machine := by
  simp only [zipLane, look_bind, laneValues]
  cases h : (inFrame (values.map fun v => laneSlice v lane zip.lanes zip.laneBits)
      (evaluate zip.source.toNat) m).result with
  | error e =>
      rw [bind_error h]
      exact ⟨rfl, rfl⟩
  | ok v =>
      rw [bind_result_ok h, bind_machine_ok h, look_bind]
      split <;> exact ⟨rfl, rfl⟩

end Action

/-! ## Placements -/

/-- The fault with the operand of a nesting that goes too deep replaced. -/
def Fault.moved (f : UInt8 → UInt8) : Fault → Fault
  | .invalidOperand ⟨.zipmap, operand, .nesting⟩ =>
    .invalidOperand ⟨.zipmap, f operand, .nesting⟩
  | e => e

theorem Fault.moved_of_isNesting_eq_false (f : UInt8 → UInt8) {e : Fault}
    (h : e.isNesting = false) : e.moved f = e := by
  unfold moved
  split
  · cases h
  · rfl

@[simp] theorem Fault.moved_id (e : Fault) : e.moved id = e := by
  unfold moved
  split <;> rfl

/-- How sources of one program live on inside another. -/
structure Placement where
  home : Program
  host : Program
  /-- The values on the stack below those of the home. -/
  floor : List Word
  /-- The sources that are accounted for. -/
  Carried : Nat → Prop
  /-- Where a carried source went. -/
  place : Nat → Nat
  /-- The operand that a `ZIPMAP` operand became. -/
  operand : UInt8 → UInt8

namespace Placement

variable {pl : Placement} {α β : Type}

/-- The second machine runs the host while the first one runs the home. -/
structure Hosts (pl : Placement) (m m' : Machine) : Prop where
  constants : m.constants = pl.home.constants
  sources : m.sources = pl.home.sources
  hostConstants : m'.constants = pl.host.constants
  hostSources : m'.sources = pl.host.sources
  stack : m'.stack = pl.floor ++ m.stack
  arguments : m'.arguments = m.arguments
  frames : m'.frames = m.frames

theorem Hosts.machine (pl : Placement) (w : Workspace) :
    pl.Hosts (pl.home.machine w) (pl.host.machine { w with stack := pl.floor ++ w.stack }) :=
  ⟨rfl, rfl, rfl, rfl, rfl, rfl, rfl⟩

theorem Hosts.depth {m m' : Machine} (h : pl.Hosts m m') : m'.depth = m.depth := by
  rw [Machine.depth, Machine.depth, h.frames]

private theorem Hosts.currentFrame {m m' : Machine} (h : pl.Hosts m m') :
    m'.currentFrame = m.currentFrame := by
  rw [Machine.currentFrame, Machine.currentFrame, h.frames, h.arguments]

theorem Hosts.openFrame {m m' : Machine} (h : pl.Hosts m m') (values : List Word) :
    pl.Hosts (m.openFrame values) (m'.openFrame values) := by
  refine ⟨h.constants, h.sources, h.hostConstants, h.hostSources, h.stack, ?_, ?_⟩
  · simp only [Machine.openFrame, h.arguments]
  · simp only [Machine.openFrame, h.arguments, h.frames]

theorem Hosts.closeFrame {m m' : Machine} (h : pl.Hosts m m') :
    pl.Hosts m.closeFrame m'.closeFrame := by
  have hframes := h.frames
  simp only [Machine.closeFrame]
  cases hm : m.frames with
  | nil =>
      rw [hm] at hframes
      rw [hframes]
      exact h
  | cons base outer =>
      rw [hm] at hframes
      rw [hframes]
      refine ⟨h.constants, h.sources, h.hostConstants, h.hostSources, h.stack, ?_, rfl⟩
      simp only [h.arguments]

/-- The second action, in the host, does what the first one does at home. -/
structure Follows (pl : Placement) (a b : Action α) : Prop where
  value : ∀ {m m' : Machine} {v : α}, pl.Hosts m m' → (a m).result = .ok v →
    (b m').result = .ok v ∧ pl.Hosts (a m).machine (b m').machine
  fault : ∀ {m m' : Machine} {e : Fault}, pl.Hosts m m' → pl.floor = [] →
    (a m).result = .error e → (b m').result = .error (e.moved pl.operand)

namespace Follows

private theorem bind {a b : Action α} {next next' : α → Action β} (hfirst : pl.Follows a b)
    (hnext : ∀ v, pl.Follows (next v) (next' v)) : pl.Follows (a >>= next) (b >>= next') := by
  constructor
  · intro m m' w hhosts hok
    obtain ⟨v, hv, hw⟩ := Action.bind_result_eq_ok hok
    obtain ⟨hv', hmid⟩ := hfirst.value hhosts hv
    obtain ⟨hw', hend⟩ := (hnext v).value hmid hw
    rw [Action.bind_result_ok hv', Action.bind_machine_ok hv', Action.bind_machine_ok hv]
    exact ⟨hw', hend⟩
  · intro m m' e hhosts hfloor herr
    cases hv : (a m).result with
    | error e' =>
        rw [Action.bind_error hv] at herr
        cases herr
        rw [Action.bind_error (hfirst.fault hhosts hfloor hv)]
    | ok v =>
        obtain ⟨hv', hmid⟩ := hfirst.value hhosts hv
        rw [Action.bind_result_ok hv] at herr
        rw [Action.bind_result_ok hv']
        exact (hnext v).fault hmid hfloor herr

/-- What an action does on machines that correspond is all that counts. -/
theorem of_apply {a b : Action α}
    (h : ∀ {m m' : Machine}, pl.Hosts m m' →
      ∃ a' b' : Action α, a m = a' m ∧ b m' = b' m' ∧ pl.Follows a' b') :
    pl.Follows a b := by
  constructor
  · intro m m' v hhosts hok
    obtain ⟨a', b', ha, hb, hfollows⟩ := h hhosts
    rw [ha] at hok ⊢
    rw [hb]
    exact hfollows.value hhosts hok
  · intro m m' e hhosts hfloor herr
    obtain ⟨a', b', ha, hb, hfollows⟩ := h hhosts
    rw [ha] at herr
    rw [hb]
    exact hfollows.fault hhosts hfloor herr

/-- A stack-local action follows itself into every host. -/
theorem of_stackLocal {a : Action α} (h : a.StackLocal) : pl.Follows a a := by
  constructor
  · intro m m' v hhosts hok
    obtain ⟨hok', hstack⟩ := h.value hhosts.stack hok
    refine ⟨hok', ?_⟩
    rw [h.keeps m, h.keeps m']
    exact ⟨hhosts.constants, hhosts.sources, hhosts.hostConstants, hhosts.hostSources, hstack,
      hhosts.arguments, hhosts.frames⟩
  · intro m m' e hhosts hfloor herr
    have hstack : m'.stack = m.stack := by
      rw [hhosts.stack, hfloor, List.nil_append]
    obtain ⟨herr', hsteady⟩ := h.fault hstack herr
    rw [herr', Fault.moved_of_isNesting_eq_false _ hsteady]

private theorem inFrame {body body' : Action Unit} (values : List Word)
    (h : pl.Follows body body') :
    pl.Follows (Action.inFrame values body) (Action.inFrame values body') := by
  constructor
  · intro m m' v hhosts hok
    obtain ⟨hok', hend⟩ := h.value (hhosts.openFrame values) hok
    exact ⟨hok', hend.closeFrame⟩
  · intro m m' e hhosts hfloor herr
    exact h.fault (hhosts.openFrame values) hfloor herr

end Follows

/-! ## Carried pairs -/

/-- A pair of the home and the pair of the host that stands for it. -/
inductive Pair (pl : Placement) : UInt8 × UInt8 → UInt8 × UInt8 → Prop where
  | constant {operand operand' : UInt8}
      (h : ∀ frame, readConstant pl.host.constants frame operand'
        = readConstant pl.home.constants frame operand) :
      Pair pl (Instruction.constant.opcode, operand) (Instruction.constant.opcode, operand')
  | stack {operand operand' : UInt8} (h : operand'.toNat = pl.floor.length + operand.toNat) :
      Pair pl (Instruction.stack.opcode, operand) (Instruction.stack.opcode, operand')
  | zipmap {operand operand' : UInt8}
      (hcarried : pl.Carried (Zip.decode operand).source.toNat)
      (hsource : (Zip.decode operand').source.toNat
        = pl.place (Zip.decode operand).source.toNat)
      (hselector : (Zip.decode operand').selector = (Zip.decode operand).selector)
      (hvalues : (Zip.decode operand').extraValues = (Zip.decode operand).extraValues)
      (hoperand : operand' = pl.operand operand) :
      Pair pl (Instruction.zipmap.opcode, operand) (Instruction.zipmap.opcode, operand')
  | other {opcode operand : UInt8} (hconstant : opcode ≠ Instruction.constant.opcode)
      (hstack : opcode ≠ Instruction.stack.opcode)
      (hzipmap : opcode ≠ Instruction.zipmap.opcode) :
      Pair pl (opcode, operand) (opcode, operand)

/-- Code of the home and the code of the host that stands for it. -/
def Code (pl : Placement) : List (UInt8 × UInt8) → List (UInt8 × UInt8) → Prop :=
  List.Forall₂ pl.Pair

/-- Every carried source exists, and its code stands in the host where the
placement says. -/
def Sound (pl : Placement) : Prop :=
  ∀ i, pl.Carried i → ∃ code code', pl.home.sources[i]? = some code ∧
    pl.host.sources[pl.place i]? = some code' ∧ isWhole code ∧ isWhole code' ∧
    pl.Code (pairs code) (pairs code')

theorem Sound.lt_length (h : pl.Sound) {i : Nat} (hi : pl.Carried i) :
    i < pl.home.sources.length ∧ pl.place i < pl.host.sources.length := by
  obtain ⟨code, code', hcode, hcode', -⟩ := h i hi
  exact ⟨(List.getElem?_eq_some_iff.mp hcode).1, (List.getElem?_eq_some_iff.mp hcode').1⟩

/-! ## Following carried code -/

private theorem isNesting_of_fetch_eq_error {values : List Word} {index : UInt64} {e : Fault}
    (h : Machine.fetch values index = .error e) : e.isNesting = false := by
  rw [Machine.fetch] at h
  split at h
  · cases h
  · cases h
    rfl

private theorem isNesting_of_readConstant_eq_error {pool frame : List Word} {operand : UInt8}
    {e : Fault} (h : readConstant pool frame operand = .error e) : e.isNesting = false := by
  rw [readConstant] at h
  split at h
  · exact isNesting_of_fetch_eq_error h
  · exact isNesting_of_fetch_eq_error h

private theorem stackLocal_pushResult {x : Except Fault Word}
    (h : ∀ e, x = .error e → e.isNesting = false) :
    (Action.ofExcept x >>= Action.push).StackLocal :=
  (Action.StackLocal.ofExcept h).bind fun value => .push value

private theorem follows_fetchConstant {operand operand' : UInt8}
    (h : ∀ frame, readConstant pl.host.constants frame operand'
      = readConstant pl.home.constants frame operand) :
    pl.Follows (Action.fetchConstant operand) (Action.fetchConstant operand') := by
  refine .of_apply fun {m m'} hhosts => ⟨_, _, Action.fetchConstant_apply operand m,
    Action.fetchConstant_apply operand' m', ?_⟩
  rw [hhosts.hostConstants, hhosts.currentFrame, h, hhosts.constants]
  exact .of_stackLocal (stackLocal_pushResult fun e he =>
    isNesting_of_readConstant_eq_error he)

/-- Reading a stack that stands on a floor, counted from its own bottom. -/
theorem fetch_floor {floor values : List Word} {index index' : UInt64} {v : Word}
    (hindex : index'.toNat = floor.length + index.toNat) (h : Machine.fetch values index = .ok v) :
    Machine.fetch (floor ++ values) index' = .ok v := by
  simp only [Machine.fetch] at h ⊢
  rw [hindex, List.getElem?_append_right (Nat.le_add_right _ _), Nat.add_sub_cancel_left]
  split at h
  · exact h
  · cases h

private theorem follows_copyStack {operand operand' : UInt8}
    (h : operand'.toNat = pl.floor.length + operand.toNat) :
    pl.Follows (Action.copyStack operand) (Action.copyStack operand') := by
  refine .of_apply fun {m m'} hhosts => ⟨_, _, Action.copyStack_apply operand m,
    Action.copyStack_apply operand' m', ?_⟩
  have hindex : operand'.toUInt64.toNat = pl.floor.length + operand.toUInt64.toNat := by
    rw [UInt8.toNat_toUInt64, UInt8.toNat_toUInt64, h]
  rw [Machine.stackAt, Machine.stackAt, hhosts.stack]
  cases hvalue : Machine.fetch m.stack operand.toUInt64 with
  | ok v =>
      rw [fetch_floor hindex hvalue]
      exact .of_stackLocal (stackLocal_pushResult fun e he => by cases he)
  | error e =>
      by_cases hfloor : pl.floor = []
      · rw [hfloor, List.length_nil, Nat.zero_add, UInt64.toNat_inj] at hindex
        rw [hindex, hfloor, List.nil_append, hvalue]
        refine .of_stackLocal (stackLocal_pushResult fun e' he => ?_)
        cases he
        exact isNesting_of_fetch_eq_error hvalue
      · -- a missing value at home may be one of the values below
        constructor
        · intro n n' v _ hok
          cases hok
        · intro n n' e' _ hempty _
          exact absurd hempty hfloor

section Zipmap

variable {evaluate evaluate' : Nat → Action Unit} {zip zip' : Zip}

private theorem follows_zipLane (values : List Word) (lane : Nat)
    (hselector : zip'.selector = zip.selector)
    (h : pl.Follows (evaluate zip.source.toNat) (evaluate' zip'.source.toNat)) :
    pl.Follows (Action.zipLane evaluate zip values lane)
      (Action.zipLane evaluate' zip' values lane) := by
  have hlane : Action.laneValues zip' values lane = Action.laneValues zip values lane := by
    simp only [Action.laneValues, Zip.lanes, Zip.laneBits, hselector]
  have hframe := h.inFrame (Action.laneValues zip values lane)
  constructor
  · intro m m' v hhosts hok
    rw [(Action.zipLane_eq_inFrame evaluate zip values lane m).1] at hok
    rw [(Action.zipLane_eq_inFrame evaluate' zip' values lane m').1,
      (Action.zipLane_eq_inFrame evaluate' zip' values lane m').2,
      (Action.zipLane_eq_inFrame evaluate zip values lane m).2, hlane]
    exact hframe.value hhosts hok
  · intro m m' e hhosts hfloor herr
    rw [(Action.zipLane_eq_inFrame evaluate zip values lane m).1] at herr
    rw [(Action.zipLane_eq_inFrame evaluate' zip' values lane m').1, hlane]
    exact hframe.fault hhosts hfloor herr

private theorem follows_zipLanes (values : List Word) (lanes : List Nat)
    (hselector : zip'.selector = zip.selector)
    (h : pl.Follows (evaluate zip.source.toNat) (evaluate' zip'.source.toNat)) :
    pl.Follows (Action.zipLanes evaluate zip values lanes)
      (Action.zipLanes evaluate' zip' values lanes) := by
  induction lanes with
  | nil => exact .of_stackLocal (.pure ())
  | cons lane rest ih => exact (follows_zipLane values lane hselector h).bind fun _ => ih

end Zipmap

/-- The evaluations given to `ZIPMAP` at home and in the host: both are
missing, or the one follows the other on carried sources. -/
inductive FollowsInner (pl : Placement) :
    Option (Nat → Action Unit) → Option (Nat → Action Unit) → Prop where
  | none : FollowsInner pl none none
  | some {evaluate evaluate' : Nat → Action Unit}
      (h : ∀ i, pl.Carried i → pl.Follows (evaluate i) (evaluate' (pl.place i))) :
      FollowsInner pl (some evaluate) (some evaluate')

theorem follows_nesting {operand operand' : UInt8} (hoperand : operand' = pl.operand operand) :
    pl.Follows (Action.fail (.invalidOperand ⟨.zipmap, operand, .nesting⟩) : Action α)
      (Action.fail (.invalidOperand ⟨.zipmap, operand', .nesting⟩)) := by
  constructor
  · intro m m' v _ hok
    cases hok
  · intro m m' e _ _ herr
    cases herr
    rw [hoperand]
    rfl

private theorem follows_zipmap (hsound : pl.Sound) {nested nested' : Option (Nat → Action Unit)}
    (hnested : pl.FollowsInner nested nested') {operand operand' : UInt8}
    (hcarried : pl.Carried (Zip.decode operand).source.toNat)
    (hsource : (Zip.decode operand').source.toNat
      = pl.place (Zip.decode operand).source.toNat)
    (hselector : (Zip.decode operand').selector = (Zip.decode operand).selector)
    (hvalues : (Zip.decode operand').extraValues = (Zip.decode operand).extraValues)
    (hoperand : operand' = pl.operand operand) :
    pl.Follows (Action.zipmap nested operand) (Action.zipmap nested' operand') := by
  cases hnested with
  | none =>
      exact .of_apply fun {m m'} _ => ⟨_, _, Action.zipmap_none_apply operand m,
        Action.zipmap_none_apply operand' m', follows_nesting hoperand⟩
  | @some evaluate evaluate' h =>
      obtain ⟨hhome, hhost⟩ := hsound.lt_length hcarried
      have heval := h _ hcarried
      rw [← hsource] at heval
      refine .of_apply fun {m m'} hhosts => ?_
      have hdepth := hhosts.depth
      by_cases hdeep : maxDepth ≤ m.depth
      · refine ⟨_, _, ?_, ?_, follows_nesting hoperand⟩
        · rw [Action.zipmap_apply, if_pos hdeep]
        · rw [Action.zipmap_apply, if_pos (by rw [hdepth]; exact hdeep)]
      · have htake : pl.Follows (Action.popMany (Zip.decode operand).valueCount)
            (Action.popMany (Zip.decode operand).valueCount) :=
          .of_stackLocal (Action.TakesTop.popMany _).stackLocal
        have hlanes := htake.bind fun values =>
          follows_zipLanes values (List.range (Zip.decode operand).lanes) hselector heval
        refine ⟨_, _, ?_, ?_, hlanes⟩
        · rw [Action.zipmap_apply, if_neg hdeep, if_neg]
          rw [hhosts.sources]
          exact Nat.not_le.mpr hhome
        · rw [Action.zipmap_apply, if_neg (by rw [hdepth]; exact hdeep), if_neg]
          · simp only [Zip.valueCount, Zip.lanes, hvalues, hselector]
          · rw [hhosts.hostSources, hsource]
            exact Nat.not_le.mpr hhost

/-- Only an instruction's own opcode leads to it. -/
theorem opcode_of_ofOpcode?_eq_some {opcode : UInt8} {instruction : Instruction}
    (h : Instruction.ofOpcode? opcode = some instruction) : instruction.opcode = opcode := by
  have hall : ∀ i : Fin Instruction.all.length, (Instruction.all.get i).opcode.toNat = i := by
    decide
  obtain ⟨hlt, hget⟩ := List.getElem?_eq_some_iff.mp h
  apply UInt8.toNat_inj.mp
  rw [← hget]
  exact hall ⟨opcode.toNat, hlt⟩

/-- With the standard table, a pair is unknown or goes to the instruction with
its opcode. -/
theorem pair_standard (env : Environment) (opcode operand : UInt8) :
    (∀ nested, Evaluation.pair Table.standard env nested opcode operand
        = Action.fail (.unknownOpcode opcode operand)) ∨
      ∃ instruction : Instruction, instruction.opcode = opcode ∧
        ∀ nested, Evaluation.pair Table.standard env nested opcode operand
          = Action.execute env nested instruction operand := by
  simp only [Evaluation.pair, Table.route, Table.standard]
  cases h : Instruction.ofOpcode? opcode with
  | none => exact .inl fun _ => rfl
  | some instruction =>
      by_cases hcontext : instruction = .context
      · subst hcontext
        exact .inl fun _ => rfl
      · by_cases hstorage : instruction = .storage
        · subst hstorage
          exact .inl fun _ => rfl
        · refine .inr ⟨instruction, opcode_of_ofOpcode?_eq_some h, fun nested => ?_⟩
          simp only

/-- Only `ZIPMAP` uses the evaluation that it is given. -/
theorem execute_eq_of_ne_zipmap (env : Environment) (nested nested' : Option (Nat → Action Unit))
    {instruction : Instruction} (h : instruction ≠ .zipmap) (operand : UInt8) :
    Action.execute env nested instruction operand
      = Action.execute env nested' instruction operand := by
  cases instruction with
  | zipmap => exact absurd rfl h
  | _ => rfl

theorem follows_pair (hsound : pl.Sound) (env : Environment)
    {nested nested' : Option (Nat → Action Unit)} (hnested : pl.FollowsInner nested nested')
    {head head' : UInt8 × UInt8} (h : pl.Pair head head') :
    pl.Follows (Evaluation.pair Table.standard env nested head.1 head.2)
      (Evaluation.pair Table.standard env nested' head'.1 head'.2) := by
  cases h with
  | constant hread => exact follows_fetchConstant hread
  | stack hindex => exact follows_copyStack hindex
  | zipmap hcarried hsource hselector hvalues hoperand =>
      exact follows_zipmap hsound hnested hcarried hsource hselector hvalues hoperand
  | @other opcode operand hconstant hstack hzipmap =>
      dsimp only
      obtain hunknown | ⟨instruction, rfl, hexecute⟩ := pair_standard env opcode operand
      · rw [hunknown, hunknown]
        exact .of_stackLocal (.fail rfl)
      · have hne : instruction ≠ .zipmap := fun heq => hzipmap (congrArg _ heq)
        rw [hexecute, hexecute, execute_eq_of_ne_zipmap env nested nested' hne]
        exact .of_stackLocal (Action.stackLocal_execute env nested' operand
          (fun heq => hconstant (congrArg _ heq)) (fun heq => hstack (congrArg _ heq)) hne)

private theorem follows_sequence (hsound : pl.Sound) (env : Environment)
    {nested nested' : Option (Nat → Action Unit)} (hnested : pl.FollowsInner nested nested')
    {code code' : List (UInt8 × UInt8)} (h : pl.Code code code') :
    pl.Follows (Evaluation.sequence Table.standard env nested code)
      (Evaluation.sequence Table.standard env nested' code') := by
  induction h with
  | nil => exact .of_stackLocal (.pure ())
  | cons hhead _ ih => exact (follows_pair hsound env hnested hhead).bind fun _ => ih

private theorem follows_source (hsound : pl.Sound) (env : Environment)
    {nested nested' : Option (Nat → Action Unit)} (hnested : pl.FollowsInner nested nested')
    {i : Nat} (hi : pl.Carried i) :
    pl.Follows (Evaluation.source Table.standard env nested i)
      (Evaluation.source Table.standard env nested' (pl.place i)) := by
  obtain ⟨code, code', hcode, hcode', hwhole, hwhole', hpairs⟩ := hsound i hi
  refine .of_apply fun {m m'} hhosts => ⟨_, _, ?_, ?_,
    follows_sequence hsound env hnested hpairs⟩
  · rw [Evaluation.source, Action.look_bind, hhosts.sources, hcode]
    simp only [hwhole, if_true]
  · rw [Evaluation.source, Action.look_bind, hhosts.hostSources, hcode']
    simp only [hwhole', if_true]

/-- Carried sources are followed, whatever nesting is left. -/
theorem Sound.follows_nested (hsound : pl.Sound) (env : Environment) (budget : Nat) :
    ∀ i, pl.Carried i → pl.Follows (Evaluation.nested Table.standard env budget i)
      (Evaluation.nested Table.standard env budget (pl.place i)) := by
  induction budget with
  | zero =>
      intro i hi
      exact follows_source hsound env .none hi
  | succ budget ih =>
      intro i hi
      exact follows_source hsound env (.some ih) hi

private theorem Sound.followsInner (hsound : pl.Sound) (env : Environment) (budget : Nat) :
    pl.FollowsInner (Evaluation.inner Table.standard env budget)
      (Evaluation.inner Table.standard env budget) := by
  cases budget with
  | zero => exact .none
  | succ budget => exact .some (hsound.follows_nested env budget)

/-! ## Effects on workspaces -/

private theorem Follows.ending_of_ok {a b : Action Unit} (h : pl.Follows a b) {w w' : Workspace}
    (hok : (a (pl.home.machine w)).ending = .ok w') :
    (b (pl.host.machine { w with stack := pl.floor ++ w.stack })).ending
      = .ok { w' with stack := pl.floor ++ w'.stack } := by
  cases hresult : (a (pl.home.machine w)).result with
  | error e =>
      rw [Outcome.ending, hresult] at hok
      cases hok
  | ok v =>
      rw [Outcome.ending, hresult] at hok
      cases hok
      obtain ⟨hresult', hend⟩ := h.value (Hosts.machine pl w) hresult
      rw [Outcome.ending, hresult', Machine.workspace, hend.stack, hend.arguments, hend.frames]
      rfl

private theorem Follows.ending_of_error {a b : Action Unit} (h : pl.Follows a b)
    (hfloor : pl.floor = []) {w : Workspace} {e : Fault}
    (herr : (a (pl.home.machine w)).ending = .error e) :
    (b (pl.host.machine w)).ending = .error (e.moved pl.operand) := by
  have hhosts := Hosts.machine pl w
  rw [hfloor] at hhosts
  cases hresult : (a (pl.home.machine w)).result with
  | ok v =>
      rw [Outcome.ending, hresult] at herr
      cases herr
  | error e' =>
      rw [Outcome.ending, hresult] at herr
      cases herr
      have hresult' : (b (pl.host.machine w)).result = .error (e.moved pl.operand) :=
        h.fault hhosts hfloor hresult
      rw [Outcome.ending, hresult']
      rfl

/-- What succeeds at home succeeds in the host, above the floor. -/
theorem Sound.performed_of_ok (hsound : pl.Sound) {env : Environment}
    {code code' : List (UInt8 × UInt8)} (hcode : pl.Code code code') {w w' : Workspace}
    (h : pl.home.performed env code w = .ok w') :
    pl.host.performed env code' { w with stack := pl.floor ++ w.stack }
      = .ok { w' with stack := pl.floor ++ w'.stack } :=
  (follows_sequence hsound env (hsound.followsInner env (maxDepth - w.depth))
    hcode).ending_of_ok h

/-- With nothing below its values, carried code has the same effect, and ends
in the same fault up to the operand of a nesting that goes too deep. -/
theorem Sound.performed_eq (hsound : pl.Sound) (hfloor : pl.floor = []) (env : Environment)
    {code code' : List (UInt8 × UInt8)} (hcode : pl.Code code code') (w : Workspace) :
    pl.host.performed env code' w
      = (pl.home.performed env code w).mapError (Fault.moved pl.operand) := by
  cases h : pl.home.performed env code w with
  | ok w' =>
      have hok := hsound.performed_of_ok hcode h
      rw [hfloor] at hok
      exact hok
  | error e =>
      exact (follows_sequence hsound env (hsound.followsInner env (maxDepth - w.depth))
        hcode).ending_of_error hfloor h

/-- A carried source that succeeds at home succeeds where it went, above the
floor. -/
theorem Sound.evaluated_of_ok (hsound : pl.Sound) {env : Environment} {i : Nat}
    (hi : pl.Carried i) {w w' : Workspace} (h : pl.home.evaluated env i w = .ok w') :
    pl.host.evaluated env (pl.place i) { w with stack := pl.floor ++ w.stack }
      = .ok { w' with stack := pl.floor ++ w'.stack } := by
  obtain ⟨code, code', hcode, hcode', hwhole, hwhole', hpairs⟩ := hsound i hi
  rw [Program.evaluated_eq_performed hcode hwhole] at h
  rw [Program.evaluated_eq_performed hcode' hwhole']
  exact hsound.performed_of_ok hpairs h

/-- A carried source has the same effect where it went. -/
theorem Sound.evaluated_eq (hsound : pl.Sound) (hfloor : pl.floor = []) (env : Environment)
    {i : Nat} (hi : pl.Carried i) (w : Workspace) :
    pl.host.evaluated env (pl.place i) w
      = (pl.home.evaluated env i w).mapError (Fault.moved pl.operand) := by
  obtain ⟨code, code', hcode, hcode', hwhole, hwhole', hpairs⟩ := hsound i hi
  rw [Program.evaluated_eq_performed hcode hwhole,
    Program.evaluated_eq_performed hcode' hwhole']
  exact hsound.performed_eq hfloor env hpairs w

end Placement

end WordMachine
