import WordMachine.Machine.Evaluate

/-!
# Instructions that work on the stack alone

Almost every instruction takes values from the top of the stack, computes with
them or asks the chain, and pushes what it found.  Such an action is
*stack-local*: it leaves everything but the stack alone, it does the same when
further values lie below those it takes, and without such values it fails in
the same way.  Only `CONSTANT`, `STACK` and `ZIPMAP` look at more than that.

## Main results

* `StackLocal.bind` — stack-local actions in a row are stack-local
* `TakesTop.stackLocal` — every way of taking values is an instance of one
* `stackLocal_execute` — the instructions that look at nothing else
-/

namespace WordMachine

/-- Whether a fault says that `ZIPMAP` is nested too deeply. -/
def Fault.isNesting : Fault → Bool
  | .invalidOperand ⟨_, _, .nesting⟩ => true
  | _ => false

/-- Whether a fault comes from the words that are computed with or from outside, and not
from the form of the code: arithmetic without a result, reads without an answer, and a
word that names no tier. -/
def Fault.dependsOnData : Fault → Bool
  | .arithmeticOverflow _ | .negativeResult _ | .divisionByZero _ => true
  | .chain _ | .batchSize .. => true
  | .invalidOperand ⟨.tierReportTimeForTier, _, .tierOutside _⟩ => true
  | _ => false

theorem Fault.isNesting_of_dependsOnData {e : Fault} (h : e.dependsOnData) :
    e.isNesting = false := by
  rw [Bool.eq_false_iff]
  intro hnesting
  unfold isNesting at hnesting
  split at hnesting
  · simp [dependsOnData] at h
  · cases hnesting

namespace Action

variable {α β : Type}

/-! ## Actions in a row -/

theorem bind_result_ok {first : Action α} {next : α → Action β} {m : Machine} {v : α}
    (h : (first m).result = .ok v) :
    ((first >>= next) m).result = (next v (first m).machine).result := by
  have hfirst : first m = ⟨.ok v, (first m).machine, (first m).events⟩ := by
    rw [← h]
  rw [bind_apply_ok hfirst]

theorem bind_machine_ok {first : Action α} {next : α → Action β} {m : Machine} {v : α}
    (h : (first m).result = .ok v) :
    ((first >>= next) m).machine = (next v (first m).machine).machine := by
  have hfirst : first m = ⟨.ok v, (first m).machine, (first m).events⟩ := by
    rw [← h]
  rw [bind_apply_ok hfirst]

theorem bind_error {first : Action α} {next : α → Action β} {m : Machine} {e : Fault}
    (h : (first m).result = .error e) :
    (first >>= next) m = ⟨.error e, (first m).machine, (first m).events⟩ := by
  apply bind_apply_error
  rw [← h]

/-- A value at the end of two actions comes from a value at the end of the
first. -/
theorem bind_result_eq_ok {first : Action α} {next : α → Action β} {m : Machine} {w : β}
    (h : ((first >>= next) m).result = .ok w) :
    ∃ v, (first m).result = .ok v ∧ (next v (first m).machine).result = .ok w := by
  cases hfirst : (first m).result with
  | error e =>
      rw [bind_error hfirst] at h
      cases h
  | ok v =>
      rw [bind_result_ok hfirst] at h
      exact ⟨v, rfl, h⟩

/-! ## Actions that change only the stack -/

/-- The action leaves everything but the stack as it was, also when it ends in
a fault. -/
def KeepsRest (a : Action α) : Prop :=
  ∀ m, (a m).machine = { m with stack := (a m).machine.stack }

namespace KeepsRest

theorem of_machine_eq {a : Action α} (h : ∀ m, (a m).machine = m) : a.KeepsRest := by
  intro m
  rw [h m]

theorem bind {first : Action α} {next : α → Action β} (hfirst : first.KeepsRest)
    (hnext : ∀ v, (next v).KeepsRest) : (first >>= next).KeepsRest := by
  intro m
  cases h : (first m).result with
  | error e =>
      rw [bind_error h]
      exact hfirst m
  | ok v =>
      rw [bind_machine_ok h, hnext v, hfirst m]

end KeepsRest

/-- The action sees only the top of the stack: it leaves everything else
alone, values further below change nothing about a success, and on the same
stack it ends in the same fault. -/
structure StackLocal (a : Action α) : Prop where
  keeps : a.KeepsRest
  value : ∀ {m m' : Machine} {floor : List Word} {v : α}, m'.stack = floor ++ m.stack →
    (a m).result = .ok v →
      (a m').result = .ok v ∧ (a m').machine.stack = floor ++ (a m).machine.stack
  fault : ∀ {m m' : Machine} {e : Fault}, m'.stack = m.stack → (a m).result = .error e →
    (a m').result = .error e ∧ e.isNesting = false

namespace StackLocal

theorem bind {first : Action α} {next : α → Action β} (hfirst : first.StackLocal)
    (hnext : ∀ v, (next v).StackLocal) : (first >>= next).StackLocal := by
  refine ⟨hfirst.keeps.bind fun v => (hnext v).keeps, ?_, ?_⟩
  · intro m m' floor w hstack hok
    obtain ⟨v, hv, hw⟩ := bind_result_eq_ok hok
    obtain ⟨hv', hmid⟩ := hfirst.value hstack hv
    obtain ⟨hw', hend⟩ := (hnext v).value hmid hw
    rw [bind_result_ok hv', bind_machine_ok hv', bind_machine_ok hv]
    exact ⟨hw', hend⟩
  · intro m m' e hstack herr
    cases hv : (first m).result with
    | error e' =>
        rw [bind_error hv] at herr
        cases herr
        obtain ⟨hv', hsteady⟩ := hfirst.fault hstack hv
        rw [bind_error hv']
        exact ⟨rfl, hsteady⟩
    | ok v =>
        rw [bind_result_ok hv] at herr
        have hflat : m'.stack = [] ++ m.stack := hstack
        obtain ⟨hv', hmid⟩ := hfirst.value hflat hv
        obtain ⟨herr', hsteady⟩ := (hnext v).fault hmid herr
        rw [bind_result_ok hv']
        exact ⟨herr', hsteady⟩

/-- An action that always yields one value and changes nothing. -/
theorem of_unchanged {a : Action α} {v : α}
    (h : ∀ m, (a m).result = .ok v ∧ (a m).machine = m) : a.StackLocal := by
  refine ⟨.of_machine_eq fun m => (h m).2, ?_, ?_⟩
  · intro m m' floor w hstack hok
    rw [(h m).1] at hok
    cases hok
    rw [(h m').2, (h m).2]
    exact ⟨(h m').1, hstack⟩
  · intro m m' e _ herr
    rw [(h m).1] at herr
    cases herr

theorem pure (v : α) : (Pure.pure v : Action α).StackLocal :=
  of_unchanged fun _ => ⟨rfl, rfl⟩

private theorem emit (event : Event) : (emit event).StackLocal :=
  of_unchanged fun _ => ⟨rfl, rfl⟩

theorem fail {e : Fault} (h : e.isNesting = false) : (fail e : Action α).StackLocal := by
  refine ⟨.of_machine_eq fun _ => rfl, ?_, ?_⟩
  · intro m m' floor w _ hok
    cases hok
  · intro m m' e' _ herr
    cases herr
    exact ⟨rfl, h⟩

private theorem pushMany (values : List Word) : (pushMany values).StackLocal := by
  refine ⟨fun _ => rfl, ?_, ?_⟩
  · intro m m' floor w hstack hok
    refine ⟨hok, ?_⟩
    change m'.stack ++ values = floor ++ (m.stack ++ values)
    rw [hstack, List.append_assoc]
  · intro m m' e _ herr
    cases herr

theorem push (value : Word) : (push value).StackLocal := pushMany [value]

theorem ofExcept {x : Except Fault α} (h : ∀ e, x = .error e → e.isNesting = false) :
    (ofExcept x).StackLocal := by
  cases x with
  | ok v => exact pure v
  | error e => exact fail (h e rfl)

private theorem ofOperand {x : Except OperandError α} (h : ∀ e, x = .error e → e.cause ≠ .nesting) :
    (ofOperand x).StackLocal := by
  cases x with
  | ok v => exact pure v
  | error e =>
      obtain ⟨instruction, operand, cause⟩ := e
      refine fail ?_
      have hcause : cause ≠ .nesting := h _ rfl
      cases cause <;> first | rfl | exact absurd rfl hcause

end StackLocal

/-! ## Taking values -/

/-- Takes `n` values, if `view` can make something of them. -/
def takeTop (n : Nat) (view : List Word → Option α) : Action α := fun m =>
  match view (m.top n) with
  | some v => if n ≤ m.height then ⟨.ok v, m.dropTop n, []⟩ else underflow n m
  | none => underflow n m

private theorem length_top_eq_min (m : Machine) (n : Nat) : (m.top n).length = min n m.height := by
  simp only [Machine.top, List.length_drop, Machine.height]
  omega

/-- A top part that is as long as wanted comes from a stack that is high
enough. -/
theorem le_height_of_length_top {m : Machine} {n : Nat} (h : (m.top n).length = n) :
    n ≤ m.height := by
  rw [length_top_eq_min] at h
  omega

theorem pop_eq_takeTop :
    pop = takeTop 1 fun | [a] => some a | _ => none := by
  funext m
  rw [pop, takeTop]
  rcases htop : m.top 1 with _ | ⟨a, _ | ⟨b, rest⟩⟩
  · rfl
  · exact (if_pos (le_height_of_length_top (by rw [htop]; rfl))).symm
  · rfl

theorem popPair_eq_takeTop :
    popPair = takeTop 2 fun | [a, b] => some (a, b) | _ => none := by
  funext m
  rw [popPair, takeTop]
  rcases htop : m.top 2 with _ | ⟨a, _ | ⟨b, _ | ⟨c, rest⟩⟩⟩
  · rfl
  · rfl
  · exact (if_pos (le_height_of_length_top (by rw [htop]; rfl))).symm
  · rfl

theorem popTriple_eq_takeTop :
    popTriple = takeTop 3 fun | [a, b, c] => some (a, b, c) | _ => none := by
  funext m
  rw [popTriple, takeTop]
  rcases htop : m.top 3 with _ | ⟨a, _ | ⟨b, _ | ⟨c, _ | ⟨d, rest⟩⟩⟩⟩
  · rfl
  · rfl
  · rfl
  · exact (if_pos (le_height_of_length_top (by rw [htop]; rfl))).symm
  · rfl

theorem popMany_eq_takeTop (n : Nat) : popMany n = takeTop n some := rfl

theorem popWindow_eq_takeTop (n : Nat) :
    popWindow n = takeTop n fun | a :: rest => some (a, rest) | [] => none := by
  funext m
  rw [popWindow, takeTop]
  rcases m.top n with _ | ⟨a, rest⟩ <;> rfl

theorem popPairAnd_eq_takeTop (n : Nat) :
    popPairAnd n = takeTop (2 + n) fun | a :: b :: rest => some (a, b, rest) | _ => none := by
  funext m
  rw [popPairAnd, takeTop]
  rcases m.top (2 + n) with _ | ⟨a, _ | ⟨b, rest⟩⟩ <;> rfl

theorem popTripleAnd_eq_takeTop (n : Nat) :
    popTripleAnd n
      = takeTop (3 + n) fun | a :: b :: c :: rest => some (a, b, c, rest) | _ => none := by
  funext m
  rw [popTripleAnd, takeTop]
  rcases m.top (3 + n) with _ | ⟨a, _ | ⟨b, _ | ⟨c, rest⟩⟩⟩ <;> rfl

/-- The action takes the top `n` values, whatever it makes of them. -/
def TakesTop (n : Nat) (a : Action α) : Prop := ∃ view, a = takeTop n view

namespace TakesTop

theorem pop : Action.pop.TakesTop 1 := ⟨_, pop_eq_takeTop⟩

theorem popPair : Action.popPair.TakesTop 2 := ⟨_, popPair_eq_takeTop⟩

theorem popTriple : Action.popTriple.TakesTop 3 := ⟨_, popTriple_eq_takeTop⟩

theorem popMany (n : Nat) : (Action.popMany n).TakesTop n := ⟨_, popMany_eq_takeTop n⟩

theorem popWindow (n : Nat) : (Action.popWindow n).TakesTop n := ⟨_, popWindow_eq_takeTop n⟩

theorem popPairAnd (n : Nat) : (Action.popPairAnd n).TakesTop (2 + n) :=
  ⟨_, popPairAnd_eq_takeTop n⟩

theorem popTripleAnd (n : Nat) : (Action.popTripleAnd n).TakesTop (3 + n) :=
  ⟨_, popTripleAnd_eq_takeTop n⟩

end TakesTop

/-- Values further below do not change the top of a stack that is high
enough. -/
theorem top_eq_of_floor {m m' : Machine} {floor : List Word} {n : Nat}
    (hstack : m'.stack = floor ++ m.stack) (hn : n ≤ m.height) : m'.top n = m.top n := by
  have hheight : m'.height - n = floor.length + (m.height - n) := by
    simp only [Machine.height] at hn ⊢
    rw [hstack, List.length_append]
    omega
  rw [Machine.top, hheight, hstack, Machine.top, List.drop_append,
    List.drop_eq_nil_of_le (Nat.le_add_right _ _), List.nil_append]
  congr 1
  omega

private theorem below_eq_of_floor {m m' : Machine} {floor : List Word} {n : Nat}
    (hstack : m'.stack = floor ++ m.stack) (hn : n ≤ m.height) :
    m'.below n = floor ++ m.below n := by
  have hheight : m'.height - n = floor.length + (m.height - n) := by
    simp only [Machine.height] at hn ⊢
    rw [hstack, List.length_append]
    omega
  rw [Machine.below, hheight, hstack, Machine.below, List.take_append,
    List.take_of_length_le (Nat.le_add_right _ _)]
  congr 2
  omega

/-- Taking values is stack-local, whatever is made of them. -/
theorem StackLocal.takeTop (n : Nat) (view : List Word → Option α) :
    (takeTop n view).StackLocal := by
  refine ⟨?_, ?_, ?_⟩
  · intro m
    simp only [Action.takeTop]
    split
    · split <;> rfl
    · rfl
  · intro m m' floor v hstack hok
    simp only [Action.takeTop] at hok ⊢
    split at hok
    · next w hview =>
        split at hok
        · next hn =>
            have hn' : n ≤ m'.height := by
              have : m'.height = floor.length + m.height := by
                simp only [Machine.height, hstack, List.length_append]
              omega
            cases hok
            rw [top_eq_of_floor hstack hn, hview]
            simp only [if_pos hn', if_pos hn]
            exact ⟨trivial, below_eq_of_floor hstack hn⟩
        · cases hok
    · cases hok
  · intro m m' e hstack herr
    have htop : m'.top n = m.top n := by
      simp only [Machine.top, Machine.height, hstack]
    have hheight : m'.height = m.height := by
      simp only [Machine.height, hstack]
    simp only [Action.takeTop, htop, underflow, hheight] at herr ⊢
    cases hview : view (m.top n) with
    | none =>
        rw [hview] at herr
        cases herr
        exact ⟨rfl, rfl⟩
    | some v =>
        by_cases hn : n ≤ m.height
        · simp only [hview, if_pos hn] at herr
          cases herr
        · simp only [hview, if_neg hn] at herr ⊢
          cases herr
          exact ⟨rfl, rfl⟩

theorem TakesTop.stackLocal {n : Nat} {a : Action α} (h : a.TakesTop n) : a.StackLocal := by
  obtain ⟨view, rfl⟩ := h
  exact .takeTop n view

end Action

/-! ## Faults of arithmetic and of reads -/

theorem dependsOnData_of_mapError_chain {α : Type} {x : Except ChainError α} {e : Fault}
    (h : x.mapError Fault.chain = .error e) : e.dependsOnData := by
  cases x with
  | ok answer => cases h
  | error failure =>
      cases h
      rfl

private theorem Arithmetic.dependsOnData_of_step_eq_error {op : Arithmetic} {acc value : Word}
    {e : Fault} (h : op.step acc value = .error e) : e.dependsOnData := by
  have hor : ∀ (fault : Fault) (x : Option Word), orFault fault x = .error e → e = fault := by
    intro fault x hx
    cases x with
    | none => cases hx; rfl
    | some v => cases hx
  cases op with
  | add | sub | mul | div | mod | exp =>
      rw [hor _ _ h]
      rfl
  | min | max | saturatingAdd | saturatingSub | saturatingMul => cases h

theorem Arithmetic.dependsOnData_of_fold_eq_error {op : Arithmetic} {acc : Word}
    {values : List Word} {e : Fault} (h : op.fold acc values = .error e) :
    e.dependsOnData := by
  induction values generalizing acc with
  | nil => cases h
  | cons value rest ih =>
      rw [fold] at h
      cases hstep : op.step acc value with
      | error fault =>
          rw [hstep] at h
          cases h
          exact dependsOnData_of_step_eq_error hstep
      | ok next =>
          rw [hstep] at h
          exact ih h

namespace Scale

private theorem dependsOnData_of_multiplyPower_eq_error {operation : String} {value : Word}
    {n : UInt32} {e : Fault} (h : multiplyPower operation value n = .error e) :
    e.dependsOnData := by
  rw [multiplyPower] at h
  split at h
  · cases h
  · split at h
    · cases h
    · cases h
      rfl

theorem dependsOnData_of_to18_eq_error {value : Word} {places : UInt8} {e : Fault}
    (h : to18 value places = .error e) : e.dependsOnData := by
  rw [to18] at h
  split at h
  · cases h
  · split at h
    · exact dependsOnData_of_multiplyPower_eq_error h
    · cases h

theorem dependsOnData_of_rescaling_eq_error {r : Rescaling} {value : Word} {operand : UInt8}
    {e : Fault} (h : r.apply value operand = .error e) : e.dependsOnData := by
  cases r with
  | to18 => exact dependsOnData_of_to18_eq_error h
  | from18 =>
      change from18 value operand = .error e at h
      rw [from18] at h
      split at h
      · cases h
      · split at h
        · cases h
        · exact dependsOnData_of_multiplyPower_eq_error h
  | byPower =>
      change byPower value operand.toInt8 = .error e at h
      rw [byPower] at h
      split at h
      · exact dependsOnData_of_multiplyPower_eq_error h
      · cases h

theorem dependsOnData_of_multiply_eq_error {a b : Word} {e : Fault}
    (h : multiply a b = .error e) : e.dependsOnData := by
  rw [multiply] at h
  split at h
  · cases h
    rfl
  · cases h

theorem dependsOnData_of_divideIn_eq_error {one a b : Word} {e : Fault}
    (h : divideIn one a b = .error e) : e.dependsOnData := by
  rw [divideIn] at h
  split at h
  · cases h
    rfl
  · split at h
    · cases h
      rfl
    · cases h

end Scale

/-! ## The instructions -/

namespace Action

private theorem StackLocal.ask (env : Environment) (q : Query) : (ask env q).StackLocal := by
  rw [Action.ask]
  cases env.chain with
  | none => exact .fail rfl
  | some chain =>
      exact (StackLocal.emit _).bind fun _ =>
        .ofExcept fun e he => Fault.isNesting_of_dependsOnData (dependsOnData_of_mapError_chain he)

private theorem StackLocal.requireFrom {x : Except ChainError Address} :
    (Action.ofExcept (x.mapError .chain) >>= fun a => Action.push a.toWord).StackLocal :=
  (StackLocal.ofExcept fun _ he =>
    Fault.isNesting_of_dependsOnData (dependsOnData_of_mapError_chain he)).bind fun _ => .push _

private theorem StackLocal.windowSize (instruction : Instruction) (operand : UInt8) :
    (Action.ofOperand (WordMachine.windowSize instruction operand)).StackLocal := by
  refine .ofOperand fun e he => ?_
  rw [WordMachine.windowSize] at he
  split at he
  · cases he
    simp
  · cases he

private theorem StackLocal.foldWindow (op : Arithmetic) (operand : UInt8) :
    (foldWindow op operand).StackLocal := by
  refine (StackLocal.windowSize _ _).bind fun n =>
    (TakesTop.popWindow n).stackLocal.bind fun top => ?_
  exact (StackLocal.ofExcept fun e he => Fault.isNesting_of_dependsOnData
    (Arithmetic.dependsOnData_of_fold_eq_error he)).bind fun value => .push value

private theorem StackLocal.anyOf (operand : UInt8) : (anyOf operand).StackLocal :=
  (StackLocal.windowSize _ _).bind fun n => (TakesTop.popWindow n).stackLocal.bind fun _ => .push _

private theorem StackLocal.everyOf (operand : UInt8) : (everyOf operand).StackLocal :=
  (StackLocal.windowSize _ _).bind fun n => (TakesTop.popWindow n).stackLocal.bind fun _ => .push _

private theorem StackLocal.scale (r : Rescaling) (operand : UInt8) :
    (scale r operand).StackLocal := by
  refine TakesTop.pop.stackLocal.bind fun value => ?_
  exact (StackLocal.ofExcept fun e he => Fault.isNesting_of_dependsOnData
    (Scale.dependsOnData_of_rescaling_eq_error he)).bind fun scaled => .push scaled

private theorem StackLocal.scaleBinary {combine : Word → Word → Except Fault Word} (operand : UInt8)
    (h : ∀ a b e, combine a b = .error e → e.dependsOnData) :
    (scaleBinary combine operand).StackLocal := by
  refine TakesTop.popPair.stackLocal.bind fun values => ?_
  refine (StackLocal.ofExcept fun e he => Fault.isNesting_of_dependsOnData
    (Scale.dependsOnData_of_to18_eq_error he)).bind fun scaled => ?_
  exact (StackLocal.ofExcept fun e he => Fault.isNesting_of_dependsOnData (h _ _ e he)).bind
    fun value => .push value

/-- Logging reads the machine, but what it reads only reaches the observer. -/
theorem StackLocal.inspect (operand : UInt8) : (inspect operand).StackLocal := by
  refine (StackLocal.ofOperand fun e he => ?_).bind fun part =>
    .of_unchanged fun m => ⟨rfl, rfl⟩
  rw [Inspection.decode] at he
  repeat' split at he
  all_goals cases he
  simp

private theorem StackLocal.selectLte (operand : UInt8) : (selectLte operand).StackLocal := by
  refine (StackLocal.ofOperand fun e he => ?_).bind fun selection =>
    TakesTop.pop.stackLocal.bind fun threshold =>
      (TakesTop.popMany _).stackLocal.bind fun reports => .push _
  rw [Selection.decode] at he
  simp only at he
  split at he
  · cases he
    simp
  · split at he
    · cases he
      simp
    · cases he

private theorem StackLocal.updateTimesForTierRange (operand : UInt8) :
    (updateTimesForTierRange operand).StackLocal := by
  refine (StackLocal.ofOperand fun e he => ?_).bind fun range =>
    TakesTop.popPair.stackLocal.bind fun values => .push _
  rw [TierRange.decode] at he
  split at he
  · cases he
  · cases he
    simp

private theorem StackLocal.erc1155BalanceOfBatch (env : Environment) (operand : UInt8) :
    (erc1155BalanceOfBatch env operand).StackLocal := by
  refine (TakesTop.popWindow _).stackLocal.bind fun values => (StackLocal.ask env _).bind
    fun balances => ?_
  split
  · exact .pushMany _
  · exact .fail rfl

private theorem StackLocal.tierReportTimeForTier (env : Environment) (operand : UInt8) :
    (tierReportTimeForTier env operand).StackLocal := by
  refine (TakesTop.popTripleAnd _).stackLocal.bind fun values => ?_
  simp only
  split
  · exact .fail rfl
  · exact (StackLocal.ask env _).bind fun time => .push _

/-- Every instruction but the three that look at constants, at the stack from
its bottom, or at other sources is stack-local. -/
theorem stackLocal_execute (env : Environment) (nested : Option (Nat → Action Unit))
    {instruction : Instruction} (operand : UInt8) (hconstant : instruction ≠ .constant)
    (hstack : instruction ≠ .stack) (hzipmap : instruction ≠ .zipmap) :
    (execute env nested instruction operand).StackLocal := by
  cases instruction with
  | constant => exact absurd rfl hconstant
  | stack => exact absurd rfl hstack
  | zipmap => exact absurd rfl hzipmap
  | context | storage => exact .fail rfl
  | debug => exact .inspect operand
  | erc20BalanceOf | erc721BalanceOf | erc20SnapshotTotalSupplyAt | erc721OwnerOf =>
      exact TakesTop.popPair.stackLocal.bind fun _ => (StackLocal.ask env _).bind fun _ => .push _
  | erc20TotalSupply =>
      exact TakesTop.pop.stackLocal.bind fun _ => (StackLocal.ask env _).bind fun _ => .push _
  | erc20SnapshotBalanceOfAt | erc1155BalanceOf =>
      exact TakesTop.popTriple.stackLocal.bind fun _ => (StackLocal.ask env _).bind fun _ => .push _
  | erc1155BalanceOfBatch => exact .erc1155BalanceOfBatch env operand
  | blockNumber => exact (StackLocal.ask env _).bind fun _ => .push _
  | sender | thisAddress => exact .requireFrom
  | blockTimestamp =>
      exact (StackLocal.ask env _).bind fun _ => (StackLocal.ask env _).bind fun _ => .push _
  | scale18 | scaleBy | scaleN => exact .scale _ operand
  | scale18Div =>
      exact .scaleBinary operand fun _ _ _ h => Scale.dependsOnData_of_divideIn_eq_error h
  | scale18Mul =>
      exact .scaleBinary operand fun _ _ _ h => Scale.dependsOnData_of_multiply_eq_error h
  | any => exact .anyOf operand
  | every => exact .everyOf operand
  | eagerIf => exact TakesTop.popTriple.stackLocal.bind fun _ => .push _
  | equalTo | greaterThan | lessThan => exact TakesTop.popPair.stackLocal.bind fun _ => .push _
  | isZero => exact TakesTop.pop.stackLocal.bind fun _ => .push _
  | saturatingAdd | saturatingMul | saturatingSub | add | div | exp | max | min | mod | mul
  | sub => exact .foldWindow _ operand
  | tierReport =>
      exact (TakesTop.popPairAnd _).stackLocal.bind fun _ =>
        (StackLocal.ask env _).bind fun _ => .push _
  | tierReportTimeForTier => exact .tierReportTimeForTier env operand
  | saturatingDiff => exact TakesTop.popPair.stackLocal.bind fun _ => .push _
  | selectLte => exact .selectLte operand
  | updateTimesForTierRange => exact .updateTimesForTierRange operand

end Action

end WordMachine
