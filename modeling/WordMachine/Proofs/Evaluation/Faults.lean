import WordMachine.Proofs.Evaluation.Recursion
import WordMachine.Proofs.Program.Check

/-!
# Which faults a run can end in

Each fault of a run has its place in the program.  An instruction can run out of values, it
can meet words that it has no result for, and some refuse their operand.  Beside these there
are the faults of `ZIPMAP` and those of sources that are missing or cut short.  All of them
but the first two can be read off the code.

The check of a program excludes the sources that are missing or cut short, for every source
that a run can come to.  A run gets from one source to another only where a `ZIPMAP` names
it, and so what is true of the entry and of the sources that are named stays true of
whatever is left to do.

## Main definitions

* `Instruction.Refuses`, `Instruction.CanFault` — the faults of an instruction
* `Program.CanFault` — the faults of a program
* `Config.Accounted` — a moment with nothing left to do but what the program says

## Main results

* `Action.faultsAs_execute` — the faults of each instruction
* `Program.canFault_of_run` — the faults of each run
* `check_foretells_missing_and_truncated_sources` — what the check says about runs
-/

namespace WordMachine

/-! ## The faults of an instruction -/

/-- The instruction reads its operand in a way that refuses it. -/
def Instruction.Refuses (instruction : Instruction) (operand : UInt8) (e : OperandError) : Prop :=
  match instruction.form with
  | .debug => Inspection.decode operand = .error e
  | .window => windowSize instruction operand = .error e
  | .selectLte => Selection.decode operand = .error e
  | .tierRange => TierRange.decode operand = .error e
  | _ => False

/-- The faults of an instruction that has no other sources to run. -/
inductive Instruction.CanFault (instruction : Instruction) (operand : UInt8) : Fault → Prop where
  /-- There are too few values to read. -/
  | underflow (needed available : Nat) :
    CanFault instruction operand (.stackUnderflow needed available)
  /-- The words that are read have no result. -/
  | data {e : Fault} (h : e.dependsOnData) : CanFault instruction operand e
  | refused {e : OperandError} (h : instruction.Refuses operand e) :
    CanFault instruction operand (.invalidOperand e)
  /-- The instruction belongs to the host. -/
  | hosted (h : instruction = .context ∨ instruction = .storage) :
    CanFault instruction operand (.unknownOpcode instruction.opcode operand)

namespace Action

variable {α β : Type} {instruction : Instruction} {operand : UInt8}

/-- The action ends only in faults of the given pair. -/
def FaultsAs (a : Action α) (instruction : Instruction) (operand : UInt8) : Prop :=
  ∀ m e, (a m).result = .error e → instruction.CanFault operand e

namespace FaultsAs

private theorem bind {first : Action α} {next : α → Action β}
    (hfirst : first.FaultsAs instruction operand)
    (hnext : ∀ v, (next v).FaultsAs instruction operand) :
    (first >>= next).FaultsAs instruction operand := by
  intro m e h
  cases hresult : (first m).result with
  | error e' =>
      rw [bind_error hresult] at h
      cases h
      exact hfirst m e hresult
  | ok v =>
      rw [bind_result_ok hresult] at h
      exact hnext v _ e h

private theorem of_ok {a : Action α} (h : ∀ m, ∃ v, (a m).result = .ok v) :
    a.FaultsAs instruction operand := by
  intro m e he
  obtain ⟨v, hv⟩ := h m
  rw [hv] at he
  cases he

private theorem fail {e : Fault} (h : instruction.CanFault operand e) :
    (fail e : Action α).FaultsAs instruction operand := by
  intro m e' he
  cases he
  exact h

private theorem pushMany (values : List Word) : (pushMany values).FaultsAs instruction operand :=
  of_ok fun _ => ⟨(), rfl⟩

private theorem push (value : Word) : (push value).FaultsAs instruction operand := pushMany [value]

private theorem ofExcept {x : Except Fault α}
    (h : ∀ e, x = .error e → instruction.CanFault operand e) :
    (ofExcept x).FaultsAs instruction operand := by
  cases x with
  | ok v => exact of_ok fun _ => ⟨v, rfl⟩
  | error e => exact fail (h e rfl)

private theorem ofData {x : Except Fault α} (h : ∀ e, x = .error e → e.dependsOnData) :
    (Action.ofExcept x).FaultsAs instruction operand :=
  ofExcept fun e he => .data (h e he)

private theorem ofOperand {x : Except OperandError α}
    (h : ∀ e, x = .error e → instruction.Refuses operand e) :
    (ofOperand x).FaultsAs instruction operand := by
  cases x with
  | ok v => exact of_ok fun _ => ⟨v, rfl⟩
  | error e => exact fail (.refused (h e rfl))

private theorem takeTop (n : Nat) (view : List Word → Option α) :
    (takeTop n view).FaultsAs instruction operand := by
  intro m e h
  unfold Action.takeTop at h
  split at h
  · split at h
    · cases h
    · cases h
      exact .underflow _ _
  · cases h
    exact .underflow _ _

end FaultsAs

private theorem TakesTop.faultsAs {n : Nat} {a : Action α} (h : a.TakesTop n) :
    a.FaultsAs instruction operand := by
  obtain ⟨view, rfl⟩ := h
  exact .takeTop n view

namespace FaultsAs

private theorem ask (env : Environment) (q : Query) : (ask env q).FaultsAs instruction operand := by
  rw [Action.ask]
  cases env.chain with
  | none => exact fail (.data rfl)
  | some chain =>
      exact (of_ok fun _ => ⟨(), rfl⟩).bind fun _ =>
        ofData fun _ he => dependsOnData_of_mapError_chain he

private theorem fetch (values : List Word) (index : UInt64) :
    (Action.ofExcept (Machine.fetch values index)).FaultsAs instruction operand := by
  refine ofExcept fun e he => ?_
  unfold Machine.fetch at he
  split at he
  · cases he
  · cases he
    exact .underflow _ _

private theorem fetchConstant (operand' : UInt8) :
    (fetchConstant operand').FaultsAs instruction operand := by
  intro m
  rw [fetchConstant_apply]
  unfold readConstant
  split
  · exact (fetch _ _).bind (fun value => push value) m
  · exact (fetch _ _).bind (fun value => push value) m

private theorem copyStack (operand' : UInt8) :
    (copyStack operand').FaultsAs instruction operand := by
  intro m
  rw [copyStack_apply]
  exact (fetch _ _).bind (fun value => push value) m

/-- An instruction over a window refuses the window without values. -/
theorem window (hform : instruction.form = .window) {next : Word × List Word → Action Unit}
    (hnext : ∀ values, (next values).FaultsAs instruction operand) :
    (do
      let n ← Action.ofOperand (windowSize instruction operand)
      let values ← Action.popWindow n
      next values).FaultsAs instruction operand := by
  refine (ofOperand fun e he => ?_).bind fun n => (TakesTop.popWindow n).faultsAs.bind hnext
  unfold Instruction.Refuses
  rw [hform]
  exact he

private theorem foldWindow (op : Arithmetic) (operand : UInt8) :
    (foldWindow op operand).FaultsAs op.instruction operand := by
  have hform : op.instruction.form = .window := by cases op <;> rfl
  exact window hform fun _ =>
    (ofData fun _ he => Arithmetic.dependsOnData_of_fold_eq_error he).bind fun v => push v

private theorem scale (r : Rescaling) (operand' : UInt8) :
    (scale r operand').FaultsAs instruction operand :=
  TakesTop.pop.faultsAs.bind fun _ =>
    (ofData fun _ he => Scale.dependsOnData_of_rescaling_eq_error he).bind fun v => push v

private theorem scaleBinary {combine : Word → Word → Except Fault Word} (operand' : UInt8)
    (h : ∀ a b e, combine a b = .error e → e.dependsOnData) :
    (scaleBinary combine operand').FaultsAs instruction operand :=
  TakesTop.popPair.faultsAs.bind fun _ =>
    (ofData fun _ he => Scale.dependsOnData_of_to18_eq_error he).bind fun _ =>
      (ofData fun e he => h _ _ e he).bind fun v => push v

private theorem erc1155BalanceOfBatch (env : Environment) (operand' : UInt8) :
    (erc1155BalanceOfBatch env operand').FaultsAs instruction operand := by
  refine (TakesTop.popWindow _).faultsAs.bind fun _ => (ask env _).bind fun balances => ?_
  split
  · exact pushMany _
  · exact fail (.data rfl)

private theorem tierReportTimeForTier (env : Environment) (operand' : UInt8) :
    (tierReportTimeForTier env operand').FaultsAs instruction operand := by
  refine (TakesTop.popTripleAnd _).faultsAs.bind fun values => ?_
  dsimp only
  split
  · exact fail (.data rfl)
  · exact (ask env _).bind fun _ => push _

end FaultsAs

/-- Every instruction but `ZIPMAP` ends only in faults of its own. -/
theorem faultsAs_execute (env : Environment) (nested : Option (Nat → Action Unit))
    {instruction : Instruction} (operand : UInt8) (hzipmap : instruction ≠ .zipmap) :
    (execute env nested instruction operand).FaultsAs instruction operand := by
  cases instruction with
  | zipmap => exact absurd rfl hzipmap
  | constant => exact .fetchConstant operand
  | stack => exact .copyStack operand
  | context => exact .fail (.hosted (.inl rfl))
  | storage => exact .fail (.hosted (.inr rfl))
  | debug => exact .bind (.ofOperand fun _ he => he) fun _ => .of_ok fun _ => ⟨(), rfl⟩
  | erc20TotalSupply =>
      exact TakesTop.pop.faultsAs.bind fun _ => (FaultsAs.ask env _).bind fun _ => .push _
  | erc20BalanceOf | erc721BalanceOf | erc20SnapshotTotalSupplyAt | erc721OwnerOf =>
      exact TakesTop.popPair.faultsAs.bind fun _ => (FaultsAs.ask env _).bind fun _ => .push _
  | erc20SnapshotBalanceOfAt | erc1155BalanceOf =>
      exact TakesTop.popTriple.faultsAs.bind fun _ => (FaultsAs.ask env _).bind fun _ => .push _
  | erc1155BalanceOfBatch => exact .erc1155BalanceOfBatch env operand
  | blockNumber => exact (FaultsAs.ask env _).bind fun _ => .push _
  | sender | thisAddress =>
      exact (FaultsAs.ofData fun _ he => dependsOnData_of_mapError_chain he).bind fun _ => .push _
  | blockTimestamp =>
      exact (FaultsAs.ask env _).bind fun _ => (FaultsAs.ask env _).bind fun _ => .push _
  | scale18 | scaleBy | scaleN => exact .scale _ operand
  | scale18Div =>
      exact .scaleBinary operand fun _ _ _ h => Scale.dependsOnData_of_divideIn_eq_error h
  | scale18Mul =>
      exact .scaleBinary operand fun _ _ _ h => Scale.dependsOnData_of_multiply_eq_error h
  | any | every => exact .window rfl fun _ => .push _
  | eagerIf => exact TakesTop.popTriple.faultsAs.bind fun _ => .push _
  | equalTo | greaterThan | lessThan | saturatingDiff =>
      exact TakesTop.popPair.faultsAs.bind fun _ => .push _
  | isZero => exact TakesTop.pop.faultsAs.bind fun _ => .push _
  | saturatingAdd => exact .foldWindow .saturatingAdd operand
  | saturatingMul => exact .foldWindow .saturatingMul operand
  | saturatingSub => exact .foldWindow .saturatingSub operand
  | add => exact .foldWindow .add operand
  | div => exact .foldWindow .div operand
  | exp => exact .foldWindow .exp operand
  | max => exact .foldWindow .max operand
  | min => exact .foldWindow .min operand
  | mod => exact .foldWindow .mod operand
  | mul => exact .foldWindow .mul operand
  | sub => exact .foldWindow .sub operand
  | tierReport =>
      exact (TakesTop.popPairAnd _).faultsAs.bind fun _ => (FaultsAs.ask env _).bind
        fun _ => .push _
  | tierReportTimeForTier => exact .tierReportTimeForTier env operand
  | selectLte =>
      exact .bind (.ofOperand fun _ he => he) fun _ => TakesTop.pop.faultsAs.bind fun _ =>
        (TakesTop.popMany _).faultsAs.bind fun _ => .push _
  | updateTimesForTierRange =>
      exact .bind (.ofOperand fun _ he => he) fun _ => TakesTop.popPair.faultsAs.bind
        fun _ => .push _

end Action

/-! ## The faults of a program -/

/-- The faults of a program that is run from an entry. -/
inductive Program.CanFault (p : Program) (entry : Nat) : Fault → Prop where
  /-- The entry does not exist. -/
  | entry (h : p.sources.length ≤ entry) :
    CanFault p entry (.invalidSource entry p.sources.length)
  /-- The entry, or a source that a `ZIPMAP` names, is cut short. -/
  | truncated {i : Nat} {code : Source} (hi : i = entry ∨ i ∈ p.zipTargets)
    (hcode : p.sources[i]? = some code) (hcut : ¬ isWhole code) :
    CanFault p entry (.truncatedSource i (code.length - 1))
  /-- A `ZIPMAP` names a source that does not exist. -/
  | target {j : Nat} (hj : j ∈ p.zipTargets) (h : p.sources.length ≤ j) :
    CanFault p entry (.invalidSource j p.sources.length)
  /-- A `ZIPMAP` is nested too deeply. -/
  | nesting {operand : UInt8}
    (h : (Instruction.zipmap.opcode, operand) ∈ p.sources.flatMap pairs) :
    CanFault p entry (.invalidOperand ⟨.zipmap, operand, .nesting⟩)
  /-- A pair leads nowhere. -/
  | unknown {opcode operand : UInt8} (h : (opcode, operand) ∈ p.sources.flatMap pairs)
    (hroute : Table.standard.route opcode operand = .unknown) :
    CanFault p entry (.unknownOpcode opcode operand)
  | pair {instruction : Instruction} {operand : UInt8} {e : Fault}
    (h : (instruction.opcode, operand) ∈ p.sources.flatMap pairs)
    (he : instruction.CanFault operand e) : CanFault p entry e

/-- With the standard table, a pair leads nowhere or to the instruction with its opcode. -/
theorem Table.route_standard (opcode operand : UInt8) :
    Table.standard.route opcode operand = .unknown ∨
      ∃ instruction : Instruction, instruction.opcode = opcode ∧
        Table.standard.route opcode operand = .standard instruction := by
  unfold route standard
  dsimp only
  split
  · exact .inl rfl
  · exact .inl rfl
  · next instruction _ _ hinstruction =>
      exact .inr ⟨instruction, Placement.opcode_of_ofOpcode?_eq_some hinstruction, rfl⟩
  · exact .inl rfl

private theorem Table.opcode_of_isZipmap {opcode operand : UInt8}
    (h : (Table.standard.route opcode operand).isZipmap) : opcode = Instruction.zipmap.opcode := by
  rw [Route.isZipmap_iff] at h
  rcases route_standard opcode operand with hunknown | ⟨instruction, rfl, hroute⟩
  · rw [hunknown] at h
    cases h
  · rw [hroute] at h
    cases h
    rfl

namespace Program

variable {p : Program} {entry : Nat} {env : Environment} {m : Machine} {opcode operand : UInt8}
variable {e : Fault}

private theorem mem_zipTargets_of_zipmap
    (h : (Instruction.zipmap.opcode, operand) ∈ p.sources.flatMap pairs) :
    (Zip.decode operand).source.toNat ∈ p.zipTargets :=
  List.mem_filterMap.mpr ⟨_, h, if_pos rfl⟩

/-- A pair other than `ZIPMAP` ends only in faults of the program that it is from. -/
theorem canFault_of_pair (h : (opcode, operand) ∈ p.sources.flatMap pairs)
    (hzipmap : ¬ (Table.standard.route opcode operand).isZipmap)
    (he : (Evaluation.pair Table.standard env none opcode operand m).result = .error e) :
    p.CanFault entry e := by
  unfold Evaluation.pair at he
  rcases Table.route_standard opcode operand with hroute | ⟨instruction, rfl, hroute⟩
  · rw [hroute] at he
    cases he
    exact .unknown h hroute
  · rw [hroute] at he hzipmap
    have hne : instruction ≠ .zipmap := by
      rintro rfl
      exact hzipmap rfl
    exact .pair h (Action.faultsAs_execute env none operand hne m e he)

/-- A `ZIPMAP` that takes no values ends in a fault of the program that it is from. -/
theorem canFault_of_takeZip (h : (Instruction.zipmap.opcode, operand) ∈ p.sources.flatMap pairs)
    (hsources : m.sources = p.sources) (he : (Action.takeZip operand m).result = .error e) :
    p.CanFault entry e := by
  unfold Action.takeZip at he
  split at he
  · cases he
    exact .nesting h
  · split at he
    · next hmissing =>
        cases he
        rw [hsources] at hmissing ⊢
        exact .target (mem_zipTargets_of_zipmap h) hmissing
    · exact .pair h ((Action.TakesTop.popMany _).faultsAs m e he)

end Program

/-! ## What is left to do -/

/-- The task does only what the program says: it comes to the entry and to sources that are
named, and it has pairs from these sources to evaluate. -/
def Task.From (p : Program) (entry : Nat) : Task → Prop
  | .source index => index = entry ∨ index ∈ p.zipTargets
  | .pairs code => ∀ pair ∈ code, pair ∈ p.sources.flatMap WordMachine.pairs
  | .lanes zip _ _ => zip.source.toNat ∈ p.zipTargets
  | .close => True

namespace Config

variable {p : Program} {entry : Nat} {env : Environment} {m : Machine} {rest : List Task}

/-- The machine has the sources of the program, what is left to do is from the program, and
so is a fault that has come. -/
structure Accounted (p : Program) (entry : Nat) (c : Config) : Prop where
  sources : c.machine.sources = p.sources
  tasks : ∀ task ∈ c.tasks, task.From p entry
  fault : ∀ e, c.result = .error e → p.CanFault entry e

namespace Accounted

private theorem start (p : Program) (entry : Nat) :
    (start entry (Machine.ofProgram p)).Accounted p entry where
  sources := rfl
  tasks := by simp [Config.start, Task.From]
  fault e h := by cases h

/-- A step without a fault. -/
theorem of_ok {tasks : List Task} (hsources : m.sources = p.sources)
    (htasks : ∀ task ∈ tasks, task.From p entry) :
    (⟨tasks, .ok (), m⟩ : Config).Accounted p entry where
  sources := hsources
  tasks := htasks
  fault e h := by cases h

/-- A step with a fault. -/
theorem of_error {tasks : List Task} {e : Fault} (hsources : m.sources = p.sources)
    (htasks : ∀ task ∈ tasks, task.From p entry) (he : p.CanFault entry e) :
    (⟨tasks, .error e, m⟩ : Config).Accounted p entry where
  sources := hsources
  tasks := htasks
  fault e' h := by
    cases h
    exact he

/-- A source is entered only if the program has it. -/
theorem step_source {index : Nat} (hsources : m.sources = p.sources)
    (hindex : index = entry ∨ index ∈ p.zipTargets) (hrest : ∀ task ∈ rest, task.From p entry) :
    (step Table.standard env ⟨.source index :: rest, .ok (), m⟩).Accounted p entry := by
  rw [Config.step_source]
  split
  · next hmissing =>
      rw [hsources, List.getElem?_eq_none_iff] at hmissing
      apply of_error hsources hrest
      rw [hsources]
      rcases hindex with rfl | hmem
      · exact .entry hmissing
      · exact .target hmem hmissing
  · next code hcode =>
      rw [hsources] at hcode
      split
      · refine of_ok hsources (List.forall_mem_cons.mpr ⟨?_, hrest⟩)
        intro pair hpair
        exact List.mem_flatMap.mpr ⟨code, List.mem_of_getElem? hcode, hpair⟩
      · next hcut => exact of_error hsources hrest (.truncated hindex hcode hcut)

/-- A pair that is evaluated adds nothing to do, or the lanes of a source that it names. -/
theorem step_pairs {code : List (UInt8 × UInt8)} (hsources : m.sources = p.sources)
    (hcode : ∀ pair ∈ code, pair ∈ p.sources.flatMap pairs)
    (hrest : ∀ task ∈ rest, task.From p entry) :
    (step Table.standard env ⟨.pairs code :: rest, .ok (), m⟩).Accounted p entry := by
  have hkept : (Config.step Table.standard env ⟨.pairs code :: rest, .ok (), m⟩).machine.sources
      = p.sources :=
    (view_step_pairs Machine.stableView_sources (Table.keeps_standard _) code).trans hsources
  cases code with
  | nil => exact of_ok hsources hrest
  | cons head code =>
      obtain ⟨opcode, operand⟩ := head
      obtain ⟨hhead, hcode⟩ := List.forall_mem_cons.mp hcode
      have htasks : ∀ task ∈ Task.pairs code :: rest, task.From p entry :=
        List.forall_mem_cons.mpr ⟨hcode, hrest⟩
      by_cases hzipmap : (Table.standard.route opcode operand).isZipmap
      · obtain rfl := Table.opcode_of_isZipmap hzipmap
        cases htake : (Action.takeZip operand m).result with
        | error fault =>
            rw [step_zipmap_error hzipmap htake] at hkept ⊢
            exact of_error hkept htasks (Program.canFault_of_takeZip hhead hsources htake)
        | ok values =>
            rw [step_zipmap_ok hzipmap htake] at hkept ⊢
            have hlanes := Program.mem_zipTargets_of_zipmap hhead
            exact of_ok hkept (List.forall_mem_cons.mpr ⟨hlanes, htasks⟩)
      · rw [step_pair hzipmap] at hkept ⊢
        exact ⟨hkept, htasks, fun e he => Program.canFault_of_pair hhead hzipmap he⟩

/-- One step accounts for all that it adds. -/
theorem step {c : Config} (h : c.Accounted p entry) :
    (c.step Table.standard env).Accounted p entry := by
  obtain ⟨tasks, result, m⟩ := c
  obtain ⟨hsources, htasks, hfault⟩ := h
  cases tasks with
  | nil => exact ⟨hsources, htasks, hfault⟩
  | cons task rest =>
      obtain ⟨htask, hrest⟩ := List.forall_mem_cons.mp htasks
      have hclosed : m.closeFrame.sources = p.sources :=
        (Machine.stableView_sources.frame m m [] rfl).trans hsources
      cases result with
      | error fault =>
          have hfault' := hfault fault rfl
          cases task with
          | close => exact of_error hclosed hrest hfault'
          | _ => exact of_error hsources hrest hfault'
      | ok v =>
          cases task with
          | close => exact of_ok hclosed hrest
          | source index => exact step_source hsources htask hrest
          | pairs code => exact step_pairs hsources htask hrest
          | lanes zip values lanes =>
              cases lanes with
              | nil => exact of_ok hsources hrest
              | cons lane more =>
                  -- the source of the lanes is entered, and they stay to be done
                  refine of_ok hsources (List.forall_mem_cons.mpr ⟨.inr htask, ?_⟩)
                  exact List.forall_mem_cons.mpr
                    ⟨trivial, List.forall_mem_cons.mpr ⟨htask, hrest⟩⟩

/-- Any number of steps is accounted for. -/
theorem iterate {c : Config} (h : c.Accounted p entry) (n : Nat) :
    ((Config.step Table.standard env)^[n] c).Accounted p entry :=
  Function.Iterate.rec (Accounted p entry) h (fun _ hc => hc.step) n

end Accounted

end Config

/-- A run ends only in faults of its program. -/
theorem Program.canFault_of_run {p : Program} {env : Environment} {entry : Nat} {e : Fault}
    (h : (run Table.standard env entry (Machine.ofProgram p)).result = .error e) :
    p.CanFault entry e := by
  obtain ⟨n, -, hresult⟩ := Config.iterate_eq_run (Table.keeps_standard _) env entry p
  have hlast : ((Config.step Table.standard env)^[n]
      (Config.start entry (Machine.ofProgram p))).Accounted p entry :=
    (Config.Accounted.start p entry).iterate n
  rw [hresult] at h
  cases hfault : ((Config.step Table.standard env)^[n]
      (Config.start entry (Machine.ofProgram p))).result with
  | error e' =>
      rw [hfault] at h
      cases h
      exact hlast.fault e hfault
  | ok v =>
      rw [hfault] at h
      cases h

/-! ## Programs that pass the check -/

/-- Whether a fault says that a source is missing or cut short. -/
def Fault.isStructural : Fault → Bool
  | .invalidSource .. | .truncatedSource .. => true
  | _ => false

private theorem Fault.isStructural_of_dependsOnData {e : Fault} (h : e.dependsOnData) :
    e.isStructural = false := by
  cases e <;> first | rfl | cases h

/-- A well-formed program that is run from a source that it has misses no source and comes
to none that is cut short. -/
theorem Program.WellFormed.isStructural_eq_false {p : Program} (hp : p.WellFormed) {entry : Nat}
    (hentry : entry < p.sources.length) {e : Fault} (he : p.CanFault entry e) :
    e.isStructural = false := by
  cases he with
  | entry h => exact absurd hentry (Nat.not_lt.mpr h)
  | truncated hi hcode hcut => exact absurd (hp.whole _ (List.mem_of_getElem? hcode)) hcut
  | target hj h => exact absurd (hp.target_lt hj) (Nat.not_lt.mpr h)
  | nesting | unknown => rfl
  | pair h he =>
      cases he with
      | underflow | refused | hosted => rfl
      | data h => exact Fault.isStructural_of_dependsOnData h

/-- A source that is cut short is reported before any pair of it is evaluated. -/
theorem Evaluation.nested_of_truncated (table : Table) (env : Environment) (budget : Nat)
    {index : Nat} {m : Machine} {code : Source} (hcode : m.sources[index]? = some code)
    (hcut : ¬ isWhole code) :
    nested table env budget index m
      = Action.fail (.truncatedSource index (code.length - 1)) m := by
  rw [nested_eq_source, source, Action.look_bind, hcode]
  dsimp only
  rw [if_neg hcut]

private theorem run_of_truncated (table : Table) (env : Environment) {index : Nat} {p : Program}
    {code : Source} (hcode : p.sources[index]? = some code) (hcut : ¬ isWhole code) :
    (run table env index (Machine.ofProgram p)).result
      = .error (.truncatedSource index (code.length - 1)) := by
  have hreset : (Machine.ofProgram p).reset = Machine.ofProgram p := rfl
  have hsource : (Machine.ofProgram p).sources[index]? = some code := hcode
  rw [run_result, hreset, evaluate, Evaluation.nested_of_truncated table env _ hsource hcut]
  rfl

/-- The check of a program tells what runs from its sources will find.  If the check accepts
the program, then no run from a source that exists ends because a source is missing or cut
short, however deep the `ZIPMAP` that comes to it.  If the check reports a source as cut
short, then a run from that source ends in the very fault that was reported. -/
theorem check_foretells_missing_and_truncated_sources (p : Program) (env : Environment) :
    (p.check = .ok () → ∀ entry < p.sources.length, ∀ i n,
      (run Table.standard env entry (Machine.ofProgram p)).result ≠ .error (.invalidSource i n) ∧
      (run Table.standard env entry (Machine.ofProgram p)).result
        ≠ .error (.truncatedSource i n)) ∧
    ∀ index offset, p.check = .error (.truncatedSource index offset) →
      (run Table.standard env index (Machine.ofProgram p)).result
        = .error (.truncatedSource index offset) := by
  constructor
  · intro hcheck entry hentry i n
    have hp := (Program.check_eq_ok_iff p).mp hcheck
    constructor
    · intro h
      have hfalse := hp.isStructural_eq_false hentry (Program.canFault_of_run h)
      cases hfalse
    · intro h
      have hfalse := hp.isStructural_eq_false hentry (Program.canFault_of_run h)
      cases hfalse
  · intro index offset hcheck
    obtain ⟨code, hcode, hcut, rfl⟩ := Program.truncated_of_check_eq_error hcheck
    exact run_of_truncated Table.standard env hcode hcut

/-- A division by zero two levels down in a program that passes the check, and a program
whose third source is cut short. -/
theorem check_foretells_missing_and_truncated_sources_of_two :
    let inner : Source := [Instruction.constant.opcode, 0, Instruction.constant.opcode, 1,
      Instruction.div.opcode, 2]
    let outer : List Source :=
      [ [Instruction.constant.opcode, 0, Instruction.zipmap.opcode, 0x01],
        [Instruction.constant.opcode, 0x80, Instruction.zipmap.opcode, 0x0a] ]
    let whole : Program := ⟨outer ++ [inner], [Word.ofSmall 5], 0, 0⟩
    let cut : Program := ⟨outer ++ [inner.dropLast], [Word.ofSmall 5], 0, 0⟩
    (whole.check = .ok () ∧
      (run Table.standard {} 0 (Machine.ofProgram whole)).result
        = .error (.divisionByZero "DIV") ∧
      ∀ entry < 3, ∀ i n,
        (run Table.standard {} entry (Machine.ofProgram whole)).result
          ≠ .error (.invalidSource i n)) ∧
    cut.check = .error (.truncatedSource 2 4) ∧
      (run Table.standard {} 2 (Machine.ofProgram cut)).result
        = .error (.truncatedSource 2 4) := by
  intro inner outer whole cut
  have hwhole : whole.check = .ok () := by decide +kernel
  have hcut : cut.check = .error (.truncatedSource 2 4) := by decide +kernel
  refine ⟨⟨hwhole, by decide +kernel, ?_⟩, hcut, ?_⟩
  · intro entry hentry i n
    exact ((check_foretells_missing_and_truncated_sources whole {}).1 hwhole entry hentry i n).1
  · exact (check_foretells_missing_and_truncated_sources cut {}).2 2 4 hcut

end WordMachine
