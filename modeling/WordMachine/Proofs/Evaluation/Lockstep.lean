import WordMachine.Proofs.Evaluation.Peaks

/-!
# Carried code, step by step

An evaluation in the host of a placement goes step by step along with the one at home, with
the same values above the floor and the same frames.  So the heights on the way correspond,
and not only those at the end.  The host may have more code behind the code that was carried;
it goes on to it where the home is done.

## Main definitions

* `Placement.TaskPair`, `Placement.Tasks` — tasks of the home and those of the host
* `Placement.Alongside` — corresponding moments of two evaluations

## Main results

* `Placement.Alongside.step` — one step
* `Placement.Alongside.stays`, `Placement.Alongside.stays_alone` — the room that a host needs
-/

namespace WordMachine

namespace Placement

variable {pl : Placement} {env : Environment} {more : List (UInt8 × UInt8)}

/-- `ZIPMAP` takes the same values at home and in the host. -/
theorem follows_takeZip (hsound : pl.Sound) {operand operand' : UInt8}
    (hcarried : pl.Carried (Zip.decode operand).source.toNat)
    (hsource : (Zip.decode operand').source.toNat
      = pl.place (Zip.decode operand).source.toNat)
    (hvalues : (Zip.decode operand').extraValues = (Zip.decode operand).extraValues)
    (hoperand : operand' = pl.operand operand) :
    pl.Follows (Action.takeZip operand) (Action.takeZip operand') := by
  obtain ⟨hhome, hhost⟩ := hsound.lt_length hcarried
  refine .of_apply fun {m m'} hhosts => ?_
  have hdepth := hhosts.depth
  unfold Action.takeZip
  by_cases hdeep : maxDepth ≤ m.depth
  · refine ⟨_, _, if_pos hdeep, ?_, follows_nesting hoperand⟩
    rw [hdepth]
    exact if_pos hdeep
  · refine ⟨Action.popMany (Zip.decode operand).valueCount,
      Action.popMany (Zip.decode operand).valueCount, ?_, ?_,
      .of_stackLocal (Action.TakesTop.popMany _).stackLocal⟩
    · rw [if_neg hdeep, if_neg]
      rw [hhosts.sources]
      exact Nat.not_le.mpr hhome
    · rw [hdepth, if_neg hdeep, if_neg]
      · simp only [Zip.valueCount, hvalues]
      · rw [hhosts.hostSources, hsource]
        exact Nat.not_le.mpr hhost

/-! ## Corresponding moments -/

/-- A task of the home and the task of the host that stands for it. -/
inductive TaskPair (pl : Placement) : Task → Task → Prop where
  | source {i : Nat} (h : pl.Carried i) : TaskPair pl (.source i) (.source (pl.place i))
  | pairs {code code' : List (UInt8 × UInt8)} (h : pl.Code code code') :
      TaskPair pl (.pairs code) (.pairs code')
  | lanes {zip zip' : Zip} (values : List Word) (lanes : List Nat)
      (hcarried : pl.Carried zip.source.toNat)
      (hsource : zip'.source.toNat = pl.place zip.source.toNat)
      (hselector : zip'.selector = zip.selector) :
      TaskPair pl (.lanes zip values lanes) (.lanes zip' values lanes)
  | close : TaskPair pl .close .close

/-- Tasks of the home and those of the host.  The last task is the code that was entered first,
behind which the host has more. -/
inductive Tasks (pl : Placement) (more : List (UInt8 × UInt8)) : List Task → List Task → Prop where
  | last {code code' : List (UInt8 × UInt8)} (h : pl.Code code code') :
      Tasks pl more [.pairs code] [.pairs (code' ++ more)]
  | cons {task task' : Task} {tasks tasks' : List Task} (h : pl.TaskPair task task')
      (htasks : Tasks pl more tasks tasks') : Tasks pl more (task :: tasks) (task' :: tasks')

/-- Corresponding moments of an evaluation at home and one in the host, without a fault. -/
inductive Alongside (pl : Placement) (more : List (UInt8 × UInt8)) : Config → Config → Prop where
  | intro {tasks tasks' : List Task} {m m' : Machine} (htasks : pl.Tasks more tasks tasks')
      (hosts : pl.Hosts m m') : Alongside pl more ⟨tasks, .ok (), m⟩ ⟨tasks', .ok (), m'⟩

/-- The host has the values of the home above its floor, and the same frames. -/
theorem Hosts.within {m m' : Machine} (hosts : pl.Hosts m m') {S S' A : Nat} (hm : m.Within S A)
    (hS : pl.floor.length + S ≤ S') : m'.Within S' A := by
  constructor
  · show m'.stack.length ≤ S'
    rw [hosts.stack, List.length_append]
    exact Nat.le_trans (Nat.add_le_add_left hm.stack _) hS
  · rw [hosts.arguments]
    exact hm.arguments

private theorem Alongside.within {c c' : Config} (h : pl.Alongside more c c') {S S' A : Nat}
    (hc : c.machine.Within S A) (hS : pl.floor.length + S ≤ S') : c'.machine.Within S' A := by
  obtain ⟨-, hosts⟩ := h
  exact hosts.within hc hS

/-- What may come of one step from corresponding moments. -/
inductive Next (pl : Placement) (more : List (UInt8 × UInt8)) (c c' : Config) : Prop where
  /-- The moments correspond again. -/
  | alongside (h : pl.Alongside more c c')
  /-- The home has failed; without a floor, so has the host. -/
  | failed {e : Fault} (h : c.result = .error e)
      (hhost : pl.floor = [] → ∃ e', c'.result = .error e')

private theorem next_of_follows {a b : Action Unit} (h : pl.Follows a b) {m m' : Machine}
    (hosts : pl.Hosts m m') {tasks tasks' : List Task} (htasks : pl.Tasks more tasks tasks') :
    pl.Next more ((a m).config tasks) ((b m').config tasks') := by
  unfold Outcome.config
  cases hresult : (a m).result with
  | ok v =>
      obtain ⟨hresult', hosts'⟩ := h.value hosts hresult
      rw [hresult']
      exact .alongside (.intro htasks hosts')
  | error e => exact .failed rfl fun hfloor => ⟨_, h.fault hosts hfloor hresult⟩

/-! ## Steps -/

section

variable (hsound : pl.Sound) (env)
include hsound

/-- A pair of the home and the pair of the host that stands for it. -/
theorem next_pair {head head' : UInt8 × UInt8} (hpair : pl.Pair head head')
    {code code' : List (UInt8 × UInt8)} {rest rest' : List Task}
    (htasks : pl.Tasks more (.pairs code :: rest) (.pairs code' :: rest')) {m m' : Machine}
    (hosts : pl.Hosts m m') :
    pl.Next more
      (Config.step Table.standard env ⟨.pairs (head :: code) :: rest, .ok (), m⟩)
      (Config.step Table.standard env ⟨.pairs (head' :: code') :: rest', .ok (), m'⟩) := by
  have hfollows := follows_pair hsound env .none hpair
  have hother : head.1 ≠ Instruction.zipmap.opcode → head'.1 ≠ Instruction.zipmap.opcode →
      pl.Next more
        (Config.step Table.standard env ⟨.pairs (head :: code) :: rest, .ok (), m⟩)
        (Config.step Table.standard env ⟨.pairs (head' :: code') :: rest', .ok (), m'⟩) := by
    intro hne hne'
    rw [Config.step_pair (mt Config.isZipmap_standard_iff.mp hne),
      Config.step_pair (mt Config.isZipmap_standard_iff.mp hne')]
    exact next_of_follows hfollows hosts htasks
  have hconstant : Instruction.constant.opcode ≠ Instruction.zipmap.opcode := by decide
  have hstack : Instruction.stack.opcode ≠ Instruction.zipmap.opcode := by decide
  cases hpair with
  | constant => exact hother hconstant hconstant
  | stack => exact hother hstack hstack
  | other _ _ hzipmap => exact hother hzipmap hzipmap
  | @zipmap operand operand' hcarried hsource hselector hvalues hoperand =>
      have htake := follows_takeZip hsound hcarried hsource hvalues hoperand
      have hroute : ∀ x, (Table.standard.route Instruction.zipmap.opcode x).isZipmap :=
        fun _ => Config.isZipmap_standard_iff.mpr rfl
      cases htaken : (Action.takeZip operand m).result with
      | ok values =>
          obtain ⟨htaken', hosts'⟩ := htake.value hosts htaken
          have hlanes : (Zip.decode operand').lanes = (Zip.decode operand).lanes := by
            simp only [Zip.lanes, hselector]
          rw [Config.step_zipmap_ok (hroute _) htaken, Config.step_zipmap_ok (hroute _) htaken',
            hlanes]
          exact .alongside (.intro (.cons (.lanes values _ hcarried hsource hselector) htasks)
            hosts')
      | error e =>
          rw [Config.step_zipmap_error (hroute _) htaken]
          refine .failed rfl fun hfloor => ⟨e.moved pl.operand, ?_⟩
          rw [Config.step_zipmap_error (hroute _) (htake.fault hosts hfloor htaken)]

/-- Corresponding tasks lead to corresponding moments, or to a fault. -/
theorem next_task {task task' : Task} (htask : pl.TaskPair task task') {rest rest' : List Task}
    (hrest : pl.Tasks more rest rest') {m m' : Machine} (hosts : pl.Hosts m m') :
    pl.Next more (Config.step Table.standard env ⟨task :: rest, .ok (), m⟩)
      (Config.step Table.standard env ⟨task' :: rest', .ok (), m'⟩) := by
  cases htask with
  | @source i hcarried =>
      obtain ⟨code, code', hcode, hcode', hwhole, hwhole', hpairs⟩ := hsound i hcarried
      rw [← hosts.sources] at hcode
      rw [← hosts.hostSources] at hcode'
      rw [Config.step_source, Config.step_source]
      simp only [hcode, hcode', hwhole, hwhole', if_true]
      exact .alongside (.intro (.cons (.pairs hpairs) hrest) hosts)
  | pairs hcode =>
      cases hcode with
      | nil => exact .alongside (.intro hrest hosts)
      | cons hhead htail =>
          exact next_pair env hsound hhead (.cons (.pairs htail) hrest) hosts
  | @lanes zip zip' values lanes hcarried hsource hselector =>
      cases lanes with
      | nil => exact .alongside (.intro hrest hosts)
      | cons lane lanes =>
          have hlane : Action.laneValues zip' values lane = Action.laneValues zip values lane := by
            simp only [Action.laneValues, Zip.lanes, Zip.laneBits, hselector]
          have hentered : pl.TaskPair (.source zip.source.toNat) (.source zip'.source.toNat) := by
            rw [hsource]
            exact .source hcarried
          refine .alongside (.intro (.cons hentered (.cons .close (.cons ?_ hrest))) ?_)
          · exact .lanes values lanes hcarried hsource hselector
          · rw [hlane]
            exact hosts.openFrame _
  | close => exact .alongside (.intro hrest hosts.closeFrame)

/-- From corresponding moments, the home is done and the host goes on to the code behind, or a
step leads to corresponding moments, or to a fault. -/
theorem Alongside.step {c c' : Config} (h : pl.Alongside more c c') :
    (∃ m m', c = ⟨[.pairs []], .ok (), m⟩ ∧ c' = ⟨[.pairs more], .ok (), m'⟩ ∧ pl.Hosts m m') ∨
      pl.Next more (c.step Table.standard env) (c'.step Table.standard env) := by
  obtain ⟨htasks, hosts⟩ := h
  cases htasks with
  | cons htask hrest => exact .inr (next_task env hsound htask hrest hosts)
  | last hcode =>
      cases hcode with
      | nil => exact .inl ⟨_, _, rfl, rfl, hosts⟩
      | cons hhead htail => exact .inr (next_pair env hsound hhead (.last htail) hosts)

/-- The room that a host needs.  It has the values of the home above its floor, and goes on to
the code behind where the home is done.  Where the home fails, a host with a floor need not
fail, so then the home has to succeed. -/
theorem Alongside.stays {S S' A : Nat} {c c' : Config} (h : pl.Alongside more c c')
    (hhome : c.Stays env S A) (hfloor : pl.floor = [] ∨ Config.Succeeds Table.standard env c)
    (hS : pl.floor.length + S ≤ S')
    (hend : ∀ m m', pl.Hosts m m' → Config.Leads Table.standard env c ⟨[.pairs []], .ok (), m⟩ →
      Config.Stays env S' A ⟨[.pairs more], .ok (), m'⟩) : c'.Stays env S' A := by
  intro n
  induction n generalizing c c' with
  | zero => exact h.within hhome.within hS
  | succ n ih =>
      obtain ⟨m, m', rfl, rfl, hosts⟩ | hnext := h.step env hsound
      · exact hend m m' hosts (.refl _) (n + 1)
      · cases hnext with
        | alongside hstep =>
            refine ih hstep hhome.step (hfloor.imp_right fun hok => hok.of_leads (.of_step rfl)) ?_
            intro m m' hosts hleads
            exact hend m m' hosts (.head rfl hleads)
        | failed hfault hhost =>
            obtain hempty | hok := hfloor
            · obtain ⟨e, he⟩ := hhost hempty
              exact Config.stays_of_step_error e (h.within hhome.within hS) he (n + 1)
            · have hresult := (hok.of_leads (.of_step rfl)).result
              rw [hfault] at hresult
              cases hresult

/-- The room that a host needs which has nothing behind the code that was carried. -/
theorem Alongside.stays_alone {S S' A : Nat} {c c' : Config} (h : pl.Alongside [] c c')
    (hhome : c.Stays env S A) (hfloor : pl.floor = [] ∨ Config.Succeeds Table.standard env c)
    (hS : pl.floor.length + S ≤ S') : c'.Stays env S' A := by
  refine h.stays env hsound hhome hfloor hS fun m m' hosts hleads => ?_
  exact Config.stays_of_last (hosts.within (hhome.of_leads hleads).within hS)

end

end Placement

end WordMachine
