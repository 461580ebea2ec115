import WordMachine.Proofs.Evaluation.Heights
import WordMachine.Proofs.Evaluation.Recursion

/-!
# How high the stacks get

The height of the stack at the end of an evaluation says nothing about the heights on the
way.  Here all moments of an evaluation are bounded, those within a `ZIPMAP` and those after a
fault as well.  A fault needs no care: an instruction takes values before it can fail and
leaves values only when it can no longer fail, so after a fault the stack is no higher than
before, and from then on frames are only closed.

## Main definitions

* `Action.Settles` — actions that leave no higher stack when they fail
* `Machine.Within`, `Config.Stays` — no moment of an evaluation has more values than a bound allows
* `ascent?` — how high code without `ZIPMAP` goes

## Main results

* `Action.settles_execute` — every instruction settles
* `Config.stays_of_error` — an evaluation that has failed needs no more room
* `Config.stays_straight` — code without `ZIPMAP`
* `Config.stays_zipmap`, `Config.stays_lanes` — `ZIPMAP` and its lanes
-/

namespace WordMachine

/-! ## Faults -/

namespace Action

variable {α β : Type}

/-- The action never leaves a higher stack. -/
def Lowers (a : Action α) : Prop := ∀ m, (a m).machine.height ≤ m.height

/-- The action leaves no higher stack when it ends in a fault. -/
def Settles (a : Action α) : Prop :=
  ∀ m e, (a m).result = .error e → (a m).machine.height ≤ m.height

theorem Lowers.settles {a : Action α} (h : a.Lowers) : a.Settles := fun m _ _ => h m

private theorem Lowers.of_machine_eq {a : Action α} (h : ∀ m, (a m).machine = m) : a.Lowers :=
  fun m => Nat.le_of_eq (congrArg Machine.height (h m))

private theorem Lowers.bind {first : Action α} {next : α → Action β} (hfirst : first.Lowers)
    (hnext : ∀ v, (next v).Lowers) : (first >>= next).Lowers := by
  intro m
  cases h : (first m).result with
  | error e =>
      rw [bind_error h]
      exact hfirst m
  | ok v =>
      rw [bind_machine_ok h]
      exact Nat.le_trans (hnext v _) (hfirst m)

/-- What comes before the last action only has to take values. -/
theorem Settles.bind {first : Action α} {next : α → Action β} (hfirst : first.Lowers)
    (hnext : ∀ v, (next v).Settles) : (first >>= next).Settles := by
  intro m e herror
  cases h : (first m).result with
  | error e' =>
      rw [bind_error h]
      exact hfirst m
  | ok v =>
      rw [bind_result_ok h] at herror
      rw [bind_machine_ok h]
      exact Nat.le_trans (hnext v _ e herror) (hfirst m)

private theorem Lowers.look (view : Machine → α) : (look view).Lowers := of_machine_eq fun _ => rfl

theorem Lowers.fail (e : Fault) : (fail e : Action α).Lowers := of_machine_eq fun _ => rfl

private theorem Lowers.ofExcept (x : Except Fault α) : (ofExcept x).Lowers := by
  cases x with
  | ok v => exact of_machine_eq fun _ => rfl
  | error e => exact fail e

private theorem Lowers.ofOperand (x : Except OperandError α) : (ofOperand x).Lowers := by
  cases x with
  | ok v => exact of_machine_eq fun _ => rfl
  | error e => exact fail _

private theorem Lowers.takeTop (n : Nat) (view : List Word → Option α) :
    (takeTop n view).Lowers := by
  intro m
  unfold Action.takeTop
  split
  · split
    · show (m.stack.take (m.height - n)).length ≤ m.height
      exact Nat.le_trans (List.length_take_le _ _) (Nat.sub_le _ _)
    · exact Nat.le_refl _
  · exact Nat.le_refl _

private theorem TakesTop.lowers {n : Nat} {a : Action α} (h : a.TakesTop n) : a.Lowers := by
  obtain ⟨view, rfl⟩ := h
  exact .takeTop n view

private theorem Lowers.ask (env : Environment) (q : Query) : (ask env q).Lowers := by
  rw [Action.ask]
  cases env.chain with
  | none => exact fail _
  | some chain =>
      have hemit : (emit (.asked q)).Lowers := of_machine_eq fun _ => rfl
      exact hemit.bind fun _ => ofExcept _

/-- Leaving values cannot fail. -/
theorem Settles.pushMany (values : List Word) : (pushMany values).Settles := by
  intro m e h
  cases h

private theorem Settles.push (value : Word) : (push value).Settles := pushMany [value]

/-- Values that were computed are left. -/
theorem Settles.pushResult (x : Except Fault Word) : (ofExcept x >>= Action.push).Settles :=
  .bind (.ofExcept x) fun value => .push value

private theorem Settles.window (instruction : Instruction) (operand : UInt8)
    {next : Word × List Word → Action Unit} (hnext : ∀ top, (next top).Settles) :
    (do
      let n ← ofOperand (windowSize instruction operand)
      let top ← Action.popWindow n
      next top).Settles :=
  .bind (.ofOperand _) fun n => .bind (TakesTop.popWindow n).lowers hnext

/-- Every instruction that evaluates no source settles. -/
theorem settles_execute (env : Environment) (instruction : Instruction) (operand : UInt8) :
    (execute env none instruction operand).Settles := by
  cases instruction with
  | constant | stack => exact .bind (.look _) fun _ => .pushResult _
  | context | storage => exact (Lowers.fail _).settles
  | zipmap =>
      refine Lowers.settles (.of_machine_eq fun m => ?_)
      show (zipmap none operand m).machine = m
      rw [zipmap_none_apply]
      rfl
  | debug =>
      exact ((Lowers.ofOperand _).bind fun _ => (Lowers.look _).bind fun _ =>
        .of_machine_eq fun _ => rfl).settles
  | erc20TotalSupply =>
      exact .bind TakesTop.pop.lowers fun _ => .bind (.ask env _) fun _ => .push _
  | erc20BalanceOf | erc20SnapshotTotalSupplyAt | erc721BalanceOf | erc721OwnerOf =>
      exact .bind TakesTop.popPair.lowers fun _ => .bind (.ask env _) fun _ => .push _
  | erc20SnapshotBalanceOfAt | erc1155BalanceOf =>
      exact .bind TakesTop.popTriple.lowers fun _ => .bind (.ask env _) fun _ => .push _
  | erc1155BalanceOfBatch =>
      refine .bind (TakesTop.popWindow _).lowers fun _ => .bind (.ask env _) fun _ => ?_
      split
      · exact .pushMany _
      · exact (Lowers.fail _).settles
  | blockNumber => exact .bind (.ask env _) fun _ => .push _
  | sender | thisAddress => exact .bind (.ofExcept _) fun _ => .push _
  | blockTimestamp => exact .bind (.ask env _) fun _ => .bind (.ask env _) fun _ => .push _
  | scale18 | scaleBy | scaleN => exact .bind TakesTop.pop.lowers fun _ => .pushResult _
  | scale18Div | scale18Mul =>
      exact .bind TakesTop.popPair.lowers fun _ => .bind (.ofExcept _) fun _ => .pushResult _
  | any | every => exact .window _ operand fun _ => .push _
  | eagerIf => exact .bind TakesTop.popTriple.lowers fun _ => .push _
  | equalTo | greaterThan | lessThan | saturatingDiff =>
      exact .bind TakesTop.popPair.lowers fun _ => .push _
  | isZero => exact .bind TakesTop.pop.lowers fun _ => .push _
  | saturatingAdd | saturatingMul | saturatingSub | add | div | exp | max | min | mod | mul
  | sub => exact .window _ operand fun _ => .pushResult _
  | tierReport =>
      exact .bind (TakesTop.popPairAnd _).lowers fun _ => .bind (.ask env _) fun _ => .push _
  | tierReportTimeForTier =>
      refine .bind (TakesTop.popTripleAnd _).lowers fun _ => ?_
      simp only
      split
      · exact (Lowers.fail _).settles
      · exact .bind (.ask env _) fun _ => .push _
  | selectLte =>
      exact .bind (.ofOperand _) fun _ => .bind TakesTop.pop.lowers fun _ =>
        .bind (TakesTop.popMany _).lowers fun _ => .push _
  | updateTimesForTierRange =>
      exact .bind (.ofOperand _) fun _ => .bind TakesTop.popPair.lowers fun _ => .push _

end Action

theorem Evaluation.keepsRest_pair_standard (env : Environment) (opcode operand : UInt8) :
    (pair Table.standard env none opcode operand).KeepsRest := by
  refine keepsRest_pair Table.keepsRest_standard env ?_ opcode operand
  intro evaluate h
  cases h

theorem Evaluation.settles_pair (env : Environment) (opcode operand : UInt8) :
    (pair Table.standard env none opcode operand).Settles := by
  obtain hunknown | ⟨instruction, -, hexecute⟩ := Placement.pair_standard env opcode operand
  · rw [hunknown]
    exact (Action.Lowers.fail _).settles
  · rw [hexecute]
    exact Action.settles_execute env instruction operand

namespace Action

/-- Values that cannot be taken stay where they are. -/
theorem popMany_of_error {n : Nat} {m : Machine} {e : Fault}
    (h : (popMany n m).result = .error e) : (popMany n m).machine = m := by
  unfold popMany at h ⊢
  split
  · next hn =>
      rw [if_pos hn] at h
      cases h
  · rfl

/-- Values are taken from the top. -/
theorem popMany_of_ok {n : Nat} {m : Machine} {values : List Word}
    (h : (popMany n m).result = .ok values) :
    ∃ stack, m.stack = stack ++ values ∧ (popMany n m).machine = { m with stack := stack } := by
  unfold popMany at h ⊢
  split at h
  · next hn =>
      cases h
      rw [if_pos hn]
      exact ⟨m.below n, (m.below_append_top n).symm, rfl⟩
  · cases h

theorem takeZip_of_error {operand : UInt8} {m : Machine} {e : Fault}
    (h : (takeZip operand m).result = .error e) : (takeZip operand m).machine = m := by
  unfold takeZip at h ⊢
  split
  · rfl
  · split
    · rfl
    · next hdepth hsource =>
        rw [if_neg hdepth, if_neg hsource] at h
        exact popMany_of_error h

theorem takeZip_of_ok {operand : UInt8} {m : Machine} {values : List Word}
    (h : (takeZip operand m).result = .ok values) :
    ∃ stack, values.length = (Zip.decode operand).valueCount ∧ m.stack = stack ++ values ∧
      (takeZip operand m).machine = { m with stack := stack } := by
  unfold takeZip at h ⊢
  split at h
  · cases h
  · next hdepth =>
      split at h
      · cases h
      · next hsource =>
          rw [if_neg hdepth, if_neg hsource]
          obtain ⟨stack, hstack, hmachine⟩ := popMany_of_ok h
          exact ⟨stack, length_of_popMany_ok h, hstack, hmachine⟩

end Action

/-! ## Heights on the way -/

/-- How many values an instruction takes and how many it leaves when it succeeds.  `ZIPMAP` is
not here. -/
def Instruction.takesLeaves? (instruction : Instruction) (operand : UInt8) : Option (Nat × Nat) :=
  match instruction with
  | .constant | .stack => some (0, 1)
  | _ => instruction.effect? operand

/-- The largest height on the way through pairs, and the height after them, both counted from a
depth below which no pair takes a value. -/
def ascent? : List (UInt8 × UInt8) → (height : Nat) → Option (Nat × Nat)
  | [], height => some (height, height)
  | (opcode, operand) :: rest, height =>
    ((Instruction.ofOpcode? opcode).bind fun i => i.takesLeaves? operand).bind fun e =>
      if e.1 ≤ height then
        (ascent? rest (height - e.1 + e.2)).map fun way => (max height way.1, way.2)
      else none

namespace Outline

variable {s : Outline} {operand : UInt8} {height : Nat}

theorem fetched_eq_some (h : s.fetched operand = some height) : height = s.height + 1 := by
  unfold fetched at h
  split at h
  · exact (Option.some.inj (Option.ite_none_right_eq_some.mp h).2).symm
  · exact (Option.some.inj (Option.ite_none_right_eq_some.mp h).2).symm

theorem copied_eq_some (h : s.copied operand = some height) : height = s.height + 1 :=
  (Option.some.inj (Option.ite_none_right_eq_some.mp h).2).symm

private theorem effect_eq_some {takes leaves : Nat} (h : s.effect takes leaves = some height) :
    height = s.height - takes + leaves :=
  (Option.some.inj (Option.ite_none_right_eq_some.mp h).2).symm

/-- An instruction that leaves a height leaves the one that follows from its effect. -/
theorem executed_eq_some {instruction : Instruction}
    (h : s.executed none instruction operand = some height) :
    ∃ e, instruction.takesLeaves? operand = some e ∧ height = s.height - e.1 + e.2 := by
  have heffect : ∀ x : Option (Nat × Nat), (x.bind fun e => s.effect e.1 e.2) = some height →
      ∃ e, x = some e ∧ height = s.height - e.1 + e.2 := by
    intro x hx
    obtain ⟨e, he, hheight⟩ := Option.bind_eq_some_iff.mp hx
    exact ⟨e, he, effect_eq_some hheight⟩
  cases instruction with
  | constant => exact ⟨(0, 1), rfl, fetched_eq_some h⟩
  | stack => exact ⟨(0, 1), rfl, copied_eq_some h⟩
  | zipmap => cases h
  | _ => exact heffect _ h

end Outline

/-! ## Bounds on all moments -/

/-- The stack holds at most `S` values, and the frames at most `A`. -/
structure Machine.Within (m : Machine) (S A : Nat) : Prop where
  stack : m.height ≤ S
  arguments : m.arguments.length ≤ A

instance (m : Machine) (S A : Nat) : Decidable (m.Within S A) :=
  decidable_of_iff (m.height ≤ S ∧ m.arguments.length ≤ A)
    ⟨fun h => ⟨h.1, h.2⟩, fun h => ⟨h.stack, h.arguments⟩⟩

private theorem Machine.Within.mono {m : Machine} {S A S' A' : Nat} (h : m.Within S A) (hS : S ≤ S')
    (hA : A ≤ A') : m.Within S' A' :=
  ⟨Nat.le_trans h.stack hS, Nat.le_trans h.arguments hA⟩

/-- Closing a frame needs no room. -/
theorem Machine.Within.closeFrame {m : Machine} {S A : Nat} (h : m.Within S A) :
    m.closeFrame.Within S A := by
  constructor
  · rw [Action.height_closeFrame]
    exact h.stack
  · refine Nat.le_trans ?_ h.arguments
    unfold Machine.closeFrame
    split
    · exact Nat.le_refl _
    · exact List.length_take_le' _ _

namespace Config

variable {env : Environment} {S A : Nat} {rest : List Task} {m : Machine}

/-- At every moment from `c` on, with the standard instructions, the stack holds at most `S`
values and the frames at most `A`. -/
def Stays (env : Environment) (S A : Nat) (c : Config) : Prop :=
  ∀ n, ((step Table.standard env)^[n] c).machine.Within S A

namespace Stays

theorem mono {S' A' : Nat} {c : Config} (h : c.Stays env S A) (hS : S ≤ S') (hA : A ≤ A') :
    c.Stays env S' A' :=
  fun n => (h n).mono hS hA

theorem within {c : Config} (h : c.Stays env S A) : c.machine.Within S A := h 0

theorem step {c : Config} (h : c.Stays env S A) : (c.step Table.standard env).Stays env S A :=
  fun n => h (n + 1)

theorem of_leads {c d : Config} (h : c.Stays env S A) (hd : Leads Table.standard env c d) :
    d.Stays env S A := by
  obtain ⟨k, rfl⟩ := hd
  intro n
  rw [← Function.iterate_add_apply]
  exact h (n + k)

end Stays

/-- One moment, and then the others. -/
theorem stays_of_step {c : Config} (hc : c.machine.Within S A)
    (h : (c.step Table.standard env).Stays env S A) : c.Stays env S A := by
  intro n
  cases n with
  | zero => exact hc
  | succ n => exact h n

private theorem stays_of_done {c : Config} (hdone : c.tasks = []) (hc : c.machine.Within S A) :
    c.Stays env S A := by
  intro n
  rw [iterate_of_done hdone n]
  exact hc

/-- When no pair is left, all is done. -/
theorem stays_of_last (hm : m.Within S A) : Stays env S A ⟨[.pairs []], .ok (), m⟩ :=
  stays_of_step hm (stays_of_done rfl hm)

/-- Nothing happens after the end, so the moments up to there are enough. -/
theorem stays_of_done_after {c : Config} (k : Nat)
    (hdone : ((step Table.standard env)^[k] c).tasks = [])
    (h : ∀ n ≤ k, ((step Table.standard env)^[n] c).machine.Within S A) : c.Stays env S A := by
  intro n
  by_cases hn : n ≤ k
  · exact h n hn
  · obtain ⟨j, rfl⟩ := Nat.exists_eq_add_of_le' (Nat.le_of_not_le hn)
    rw [Function.iterate_add_apply]
    exact stays_of_done hdone (h k (Nat.le_refl k)) j

/-! ## Faults on the way -/

/-- With the standard table, `ZIPMAP` is what has its opcode. -/
theorem isZipmap_standard_iff {opcode operand : UInt8} :
    (Table.standard.route opcode operand).isZipmap ↔ opcode = Instruction.zipmap.opcode := by
  rw [Route.isZipmap_iff]
  constructor
  · intro h
    simp only [Table.route, Table.standard] at h
    split at h
    · cases h
    · cases h
    · next hopcode =>
        cases h
        exact (Placement.opcode_of_ofOpcode?_eq_some hopcode).symm
    · cases h
  · rintro rfl
    rfl

/-- A pair that fails leaves no higher stack. -/
theorem within_step_pairs {code : List (UInt8 × UInt8)}
    (hm : m.Within S A) {fault : Fault}
    (hfault : (step Table.standard env ⟨.pairs code :: rest, .ok (), m⟩).result = .error fault) :
    (step Table.standard env ⟨.pairs code :: rest, .ok (), m⟩).machine.Within S A := by
  cases code with
  | nil => cases hfault
  | cons head code =>
      obtain ⟨opcode, operand⟩ := head
      by_cases hzipmap : (Table.standard.route opcode operand).isZipmap
      · cases htake : (Action.takeZip operand m).result with
        | error e =>
            rw [step_zipmap_error hzipmap htake, Action.takeZip_of_error htake]
            exact hm
        | ok values =>
            rw [step_zipmap_ok hzipmap htake] at hfault
            cases hfault
      · rw [step_pair hzipmap] at hfault ⊢
        constructor
        · exact Nat.le_trans (Evaluation.settles_pair env opcode operand m fault hfault) hm.stack
        · show (Evaluation.pair Table.standard env none opcode operand m).machine.arguments.length
            ≤ A
          rw [Evaluation.keepsRest_pair_standard env opcode operand m]
          exact hm.arguments

/-- A step that ends in a fault, or comes after one, leaves no higher stack. -/
theorem within_step_of_error {c : Config} (hc : c.machine.Within S A) {fault : Fault}
    (hfault : (c.step Table.standard env).result = .error fault) :
    (c.step Table.standard env).machine.Within S A := by
  obtain ⟨tasks, result, m⟩ := c
  cases tasks with
  | nil => exact hc
  | cons task rest =>
      cases task with
      | close =>
          rw [step_close]
          exact hc.closeFrame
      | source index =>
          cases result with
          | error e => exact hc
          | ok v =>
              rw [step_source]
              split
              · exact hc
              · split
                · exact hc
                · exact hc
      | pairs code =>
          cases result with
          | error e => exact hc
          | ok v => exact within_step_pairs hc hfault
      | lanes zip values lanes =>
          cases result with
          | error e => exact hc
          | ok v =>
              cases lanes with
              | nil => exact hc
              | cons lane more => cases hfault

/-- An evaluation that has failed needs no more room: frames are closed, and the stack stays. -/
theorem stays_of_error {c : Config} {fault : Fault} (hfault : c.result = .error fault)
    (hc : c.machine.Within S A) : c.Stays env S A := by
  intro n
  induction n generalizing c with
  | zero => exact hc
  | succ n ih =>
      have hstep : (c.step Table.standard env).result = .error fault := result_step_of_error hfault
      exact ih hstep (within_step_of_error hc hstep)

/-- If the next step fails, what comes after it needs no care. -/
theorem stays_of_step_error {c : Config} (fault : Fault) (hc : c.machine.Within S A)
    (hfault : (c.step Table.standard env).result = .error fault) : c.Stays env S A :=
  stays_of_step hc (stays_of_error hfault (within_step_of_error hc hfault))

/-! ## Single tasks -/

/-- An existing source is entered. -/
theorem stays_source {index : Nat} {code : Source} (hcode : m.sources[index]? = some code)
    (hwhole : isWhole code) (hm : m.Within S A)
    (h : Stays env S A ⟨.pairs (pairs code) :: rest, .ok (), m⟩) :
    Stays env S A ⟨.source index :: rest, .ok (), m⟩ := by
  have hstep := step_source Table.standard env rest m index
  simp only [hcode, if_pos hwhole] at hstep
  refine stays_of_step hm ?_
  rwa [hstep]

section

variable {opcode operand : UInt8} {code : List (UInt8 × UInt8)}

/-- A pair other than `ZIPMAP` leads to the pairs after it, or to a fault. -/
theorem stays_pair (hzipmap : opcode ≠ Instruction.zipmap.opcode) (hm : m.Within S A)
    (h : (Evaluation.pair Table.standard env none opcode operand m).result = .ok () →
      Stays env S A ⟨.pairs code :: rest, .ok (),
        (Evaluation.pair Table.standard env none opcode operand m).machine⟩) :
    Stays env S A ⟨.pairs ((opcode, operand) :: code) :: rest, .ok (), m⟩ := by
  cases hresult : (Evaluation.pair Table.standard env none opcode operand m).result with
  | ok v =>
      refine stays_of_step hm ?_
      rw [step_pair (mt isZipmap_standard_iff.mp hzipmap), Outcome.config, hresult]
      exact h hresult
  | error e =>
      refine stays_of_step_error e hm ?_
      rw [step_pair (mt isZipmap_standard_iff.mp hzipmap)]
      exact hresult

end

/-! ## Code without `ZIPMAP` -/

/-- A pair that succeeds takes and leaves what its instruction says. -/
theorem height_of_pair {opcode operand : UInt8}
    (hok : (Evaluation.pair Table.standard env none opcode operand m).result = .ok ()) :
    ∃ e, ((Instruction.ofOpcode? opcode).bind fun i => i.takesLeaves? operand) = some e ∧
      (Evaluation.pair Table.standard env none opcode operand m).machine.height
        = m.height - e.1 + e.2 := by
  have hagrees := (Evaluation.reshapes_pair env .none opcode operand).agrees m
  cases hforetold : (Instruction.ofOpcode? opcode).bind fun i =>
      m.outline.executed none i operand with
  | none =>
      rw [hforetold] at hagrees
      obtain ⟨e, herror⟩ := hagrees
      rw [hok] at herror
      cases herror
  | some height =>
      rw [hforetold] at hagrees
      obtain ⟨instruction, hinstruction, hexecuted⟩ := Option.bind_eq_some_iff.mp hforetold
      obtain ⟨e, heffect, hheight⟩ := Outline.executed_eq_some hexecuted
      rw [hinstruction]
      refine ⟨e, heffect, ?_⟩
      obtain ⟨-, hleft⟩ | ⟨e, herror, -⟩ := hagrees
      · exact hleft.trans hheight
      · rw [hok] at herror
        cases herror

/-- Code without `ZIPMAP` goes as high as its ascent says, and then on to what comes after it. -/
theorem stays_straight {code more : List (UInt8 × UInt8)} {height : Nat} {way : Nat × Nat}
    (hway : ascent? code height = some way) {base : Nat} (hbase : m.height = base + height)
    (hS : base + way.1 ≤ S) (hA : m.arguments.length ≤ A)
    (hmore : ∀ stack, stack.length = base + way.2 → stack.length ≤ S →
      Stays env S A ⟨.pairs more :: rest, .ok (), { m with stack := stack }⟩) :
    Stays env S A ⟨.pairs (code ++ more) :: rest, .ok (), m⟩ := by
  induction code generalizing m height way with
  | nil =>
      cases hway
      exact hmore m.stack hbase (Nat.le_trans (Nat.le_of_eq hbase) hS)
  | cons pair code ih =>
      obtain ⟨opcode, operand⟩ := pair
      obtain ⟨e, heffect, hway⟩ := Option.bind_eq_some_iff.mp hway
      split at hway
      · next htakes =>
          obtain ⟨way', hway', rfl⟩ := Option.map_eq_some_iff.mp hway
          have hopcode : opcode ≠ Instruction.zipmap.opcode := by
            rintro rfl
            cases heffect
          have hm : m.Within S A := ⟨by omega, hA⟩
          refine stays_pair hopcode hm fun hok => ?_
          obtain ⟨e', heffect', hheight⟩ := height_of_pair hok
          obtain rfl : e' = e := Option.some.inj (heffect'.symm.trans heffect)
          have hkeeps := Evaluation.keepsRest_pair_standard env opcode operand m
          -- only the stack has changed, and nothing below the base
          refine ih hway' ?_ (by omega) ?_ ?_
          · rw [hheight]
            omega
          · rw [hkeeps]
            exact hA
          · intro stack hstack hle
            rw [hkeeps]
            exact hmore stack hstack hle
      · cases hway

/-! ## `ZIPMAP` -/

section

variable {operand : UInt8} {code : List (UInt8 × UInt8)}

/-- `ZIPMAP` fails, or it takes its values and goes on to its lanes. -/
theorem stays_zipmap (hm : m.Within S A)
    (h : ∀ values stack, values.length = (Zip.decode operand).valueCount →
      m.stack = stack ++ values →
      Stays env S A ⟨.lanes (Zip.decode operand) values (List.range (Zip.decode operand).lanes)
        :: .pairs code :: rest, .ok (), { m with stack := stack }⟩) :
    Stays env S A ⟨.pairs ((Instruction.zipmap.opcode, operand) :: code) :: rest, .ok (), m⟩ := by
  have hroute : (Table.standard.route Instruction.zipmap.opcode operand).isZipmap :=
    isZipmap_standard_iff.mpr rfl
  cases htake : (Action.takeZip operand m).result with
  | error e =>
      refine stays_of_step_error e hm ?_
      rw [step_zipmap_error hroute htake]
  | ok values =>
      obtain ⟨stack, hlength, hstack, hmachine⟩ := Action.takeZip_of_ok htake
      refine stays_of_step hm ?_
      rw [step_zipmap_ok hroute htake, hmachine]
      exact h values stack hlength hstack

/-- Lanes are evaluated one after the other, each in a frame of its own.  If the source goes up
by at most `climb` values and leaves one, the last lane goes up the highest. -/
theorem stays_lanes {zip : Zip} {values : List Word} (climb : Nat) (hclimb : 0 < climb)
    (hlane : ∀ lane stack after, stack.length + climb ≤ S →
      (∀ stack', stack'.length = stack.length + 1 → Stays env S A ⟨after, .ok (),
        { m.openFrame (Action.laneValues zip values lane) with stack := stack' }⟩) →
      Stays env S A ⟨.source zip.source.toNat :: after, .ok (),
        { m.openFrame (Action.laneValues zip values lane) with stack := stack }⟩)
    (hA : m.arguments.length + values.length ≤ A) {lanes : List Nat} {stack : List Word}
    (hS : stack.length + lanes.length + climb ≤ S + 1)
    (hrest : ∀ stack', stack'.length = stack.length + lanes.length →
      Stays env S A ⟨rest, .ok (), { m with stack := stack' }⟩) :
    Stays env S A ⟨.lanes zip values lanes :: rest, .ok (), { m with stack := stack }⟩ := by
  have hframes : m.arguments.length ≤ A := by omega
  induction lanes generalizing stack with
  | nil =>
      refine stays_of_step ⟨?_, hframes⟩ (hrest stack rfl)
      show stack.length ≤ S
      simp only [List.length_nil] at hS
      omega
  | cons lane more ih =>
      rw [List.length_cons] at hS hrest
      refine stays_of_step ⟨?_, hframes⟩ ?_
      · show stack.length ≤ S
        omega
      · refine hlane lane stack _ (by omega) fun stack' hstack' => ?_
        -- closing the frame leaves the machine with one value more
        refine stays_of_step ⟨?_, ?_⟩ ?_
        · show stack'.length ≤ S
          omega
        · show (m.arguments ++ Action.laneValues zip values lane).length ≤ A
          rwa [List.length_append, Action.laneValues, List.length_map]
        · have hclose : ({ m.openFrame (Action.laneValues zip values lane) with
              stack := stack' } : Machine).closeFrame = { m with stack := stack' } := by
            simp [Machine.openFrame, Machine.closeFrame]
          rw [step_close, hclose]
          refine ih (by omega) fun stack'' hstack'' => hrest stack'' ?_
          omega

end

end Config

end WordMachine
