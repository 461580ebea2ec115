import WordMachine.Proofs.Evaluation.Effects
import WordMachine.Proofs.Evaluation.Instructions

/-!
# Stacks that are too short

An instruction takes all its values at once, so on a stack that is too short it takes none:
the machine is left as it was, and the fault names the number of values it takes and the
height of the stack.  `SELECT_LTE` is the one instruction that takes its values in two steps.
Where there is a threshold but too few reports below it, the threshold is lost, and the fault
counts the reports alone.

`CONSTANT` and `STACK` read by index and take nothing, and a read that fails leaves the
machine as it was, too.

## Main definitions

* `Instruction.taken` — how many values an instruction takes
* `Action.Demands` — the action fails without a trace on a stack that is too short

## Main results

* `Action.demands_execute` — every instruction that takes its values at once
* `Action.selectLte_apply_of_short` — the instruction that does not
* `Action.short_stack_is_kept_except_threshold` — all of them
-/

namespace WordMachine

/-- How many values an instruction takes off the stack.  With an operand that it refuses, it
takes none. -/
def Instruction.taken (instruction : Instruction) (operand : UInt8) : Nat :=
  ((instruction.effect? operand).map Prod.fst).getD 0

namespace Action

variable {α β : Type}

/-! ## Actions that take all their values at once -/

/-- On a stack of fewer than `n` values, the action is a fault that says so, and nothing
else. -/
def Demands (n : Nat) (a : Action α) : Prop :=
  ∀ m, m.height < n → a m = ⟨.error (.stackUnderflow n m.height), m, []⟩

namespace Demands

private theorem zero (a : Action α) : a.Demands 0 := fun _ h => absurd h (Nat.not_lt_zero _)

/-- What comes after the values are taken is not reached. -/
theorem bind {first : Action α} {n : Nat} (h : first.Demands n) (next : α → Action β) :
    (first >>= next).Demands n :=
  fun m hm => bind_apply_error (h m hm)

private theorem takeTop (n : Nat) (view : List Word → Option α) : (takeTop n view).Demands n := by
  intro m hm
  rw [Action.takeTop]
  cases view (m.top n) with
  | none => rfl
  | some v => exact if_neg (Nat.not_le.mpr hm)

end Demands

private theorem TakesTop.demands {n : Nat} {a : Action α} (h : a.TakesTop n) : a.Demands n := by
  obtain ⟨view, rfl⟩ := h
  exact .takeTop n view

namespace Demands

/-- An operand that is refused demands nothing. -/
theorem ofOperand_bind {x : Except OperandError α} {next : α → Action β} {e : α → Nat × Nat}
    (h : ∀ v, x = .ok v → (next v).Demands (e v).1) :
    (ofOperand x >>= next).Demands (((x.toOption.map e).map Prod.fst).getD 0) := by
  cases x with
  | ok v =>
      rw [show ofOperand (.ok v) >>= next = next v from pure_bind v next]
      exact h v rfl
  | error refusal => exact zero _

/-- An instruction over a window demands the window. -/
theorem window (instruction : Instruction) (operand : UInt8)
    (next : Word × List Word → Action Unit) :
    (do
      let n ← ofOperand (windowSize instruction operand)
      let top ← Action.popWindow n
      next top).Demands
        ((((windowSize instruction operand).toOption.map fun n => (n, 1)).map Prod.fst).getD 0) :=
  ofOperand_bind fun n _ => (TakesTop.popWindow n).demands.bind next

end Demands

/-- Every instruction but `SELECT_LTE` and `ZIPMAP` demands at once all values that it
takes. -/
theorem demands_execute (env : Environment) (nested : Option (Nat → Action Unit))
    {instruction : Instruction} (operand : UInt8) (hzipmap : instruction ≠ .zipmap)
    (hselect : instruction ≠ .selectLte) :
    (execute env nested instruction operand).Demands (instruction.taken operand) := by
  cases instruction with
  | zipmap => exact absurd rfl hzipmap
  | selectLte => exact absurd rfl hselect
  | constant | stack | context | storage | blockNumber | sender | thisAddress | blockTimestamp =>
      exact .zero _
  | debug => exact .ofOperand_bind fun _ _ => .zero _
  | erc20TotalSupply | scale18 | scaleBy | scaleN | isZero => exact TakesTop.pop.demands.bind _
  | erc20BalanceOf | erc20SnapshotTotalSupplyAt | erc721BalanceOf | erc721OwnerOf
  | scale18Div | scale18Mul | equalTo | greaterThan | lessThan | saturatingDiff =>
      exact TakesTop.popPair.demands.bind _
  | erc20SnapshotBalanceOfAt | erc1155BalanceOf | eagerIf => exact TakesTop.popTriple.demands.bind _
  | erc1155BalanceOfBatch => exact (TakesTop.popWindow _).demands.bind _
  | tierReport => exact (TakesTop.popPairAnd _).demands.bind _
  | tierReportTimeForTier => exact (TakesTop.popTripleAnd _).demands.bind _
  | any | every | saturatingAdd | saturatingMul | saturatingSub | add | div | exp | max | min
  | mod | mul | sub => exact .window _ operand _
  | updateTimesForTierRange => exact .ofOperand_bind fun _ _ => TakesTop.popPair.demands.bind _

/-! ## The instruction that takes its values in two steps -/

variable {m : Machine} {operand : UInt8} {selection : Selection}

private theorem taken_selectLte (hdecode : Selection.decode operand = .ok selection) :
    Instruction.selectLte.taken operand = 1 + selection.count.toNat := by
  rw [Instruction.taken, Instruction.effect?, hdecode]
  rfl

/-- Without a threshold, nothing is taken. -/
theorem selectLte_apply_of_empty (hdecode : Selection.decode operand = .ok selection)
    (hstack : m.stack = []) : selectLte operand m = ⟨.error (.stackUnderflow 1 0), m, []⟩ := by
  have hheight : m.height = 0 := by rw [Machine.height, hstack, List.length_nil]
  have hpop : pop m = ⟨.error (.stackUnderflow 1 0), m, []⟩ := by
    rw [TakesTop.pop.demands m (by omega), hheight]
  rw [selectLte, hdecode]
  exact (bind_apply_ok rfl).trans (by rw [bind_apply_error hpop, List.nil_append])

/-- With a threshold but too few reports, the threshold is taken, and the reports are not. -/
theorem selectLte_apply_of_short (hdecode : Selection.decode operand = .ok selection)
    {reports : List Word} {threshold : Word} (hstack : m.stack = reports ++ [threshold])
    (hshort : reports.length < selection.count.toNat) :
    selectLte operand m
      = ⟨.error (.stackUnderflow selection.count.toNat reports.length),
          { m with stack := reports }, []⟩ := by
  have hrest : popMany selection.count.toNat { m with stack := reports }
      = ⟨.error (.stackUnderflow selection.count.toNat reports.length),
          { m with stack := reports }, []⟩ :=
    (TakesTop.popMany _).demands _ hshort
  rw [selectLte, hdecode]
  refine (bind_apply_ok rfl).trans ?_
  rw [bind_apply_ok (pop_apply reports hstack), bind_apply_error hrest]
  rfl

/-! ## Underflows of instructions -/

/-- An operand that is refused is a fault of its own. -/
theorem ofOperand_bind_of_eq_none {x : Except OperandError α} {next : α → Action β}
    {e : α → Nat × Nat} (h : x.toOption.map e = none) (m : Machine) :
    ∃ refusal, ((ofOperand x >>= next) m).result = .error (.invalidOperand refusal) := by
  cases x with
  | ok v => cases h
  | error refusal => exact ⟨refusal, rfl⟩

/-- An instruction that takes no number of values refuses its operand or belongs to the
host. -/
theorem refused_of_effect?_eq_none (env : Environment) (nested : Option (Nat → Action Unit))
    {instruction : Instruction} (hconstant : instruction ≠ .constant)
    (hstack : instruction ≠ .stack) (hzipmap : instruction ≠ .zipmap)
    (h : instruction.effect? operand = none) (m : Machine) :
    (∃ refusal, (execute env nested instruction operand m).result
        = .error (.invalidOperand refusal)) ∨
      (execute env nested instruction operand m).result
        = .error (.unknownOpcode instruction.opcode operand) := by
  cases instruction with
  | constant => exact absurd rfl hconstant
  | stack => exact absurd rfl hstack
  | zipmap => exact absurd rfl hzipmap
  | context | storage => exact .inr rfl
  | debug | any | every | saturatingAdd | saturatingMul | saturatingSub | add | div | exp | max
  | min | mod | mul | sub | selectLte | updateTimesForTierRange =>
      exact .inl (ofOperand_bind_of_eq_none h m)
  | _ => cases h

/-- An instruction that takes values runs out of them only on a stack that is too short. -/
theorem height_lt_taken_of_underflow (env : Environment) (nested : Option (Nat → Action Unit))
    {instruction : Instruction} (hconstant : instruction ≠ .constant)
    (hstack : instruction ≠ .stack) (hzipmap : instruction ≠ .zipmap) {needed available : Nat}
    (h : (execute env nested instruction operand m).result
      = .error (.stackUnderflow needed available)) : m.height < instruction.taken operand := by
  have hagrees := (reshapes_execute env nested operand hconstant hstack hzipmap).agrees m
  cases heffect : instruction.effect? operand with
  | none =>
      have hrefused := refused_of_effect?_eq_none env nested hconstant hstack hzipmap heffect m
      rw [h] at hrefused
      obtain ⟨refusal, hrefusal⟩ | hunknown := hrefused
      · cases hrefusal
      · cases hunknown
  | some effect =>
      have htaken : instruction.taken operand = effect.1 := by rw [Instruction.taken, heffect]; rfl
      by_contra hhigh
      have hfits : effect.1 ≤ m.outline.height := htaken ▸ Nat.not_lt.mp hhigh
      rw [heffect, Option.bind_some, Outline.effect, if_pos hfits] at hagrees
      -- with enough values, only the data can be at fault
      obtain ⟨⟨v, hv⟩, -⟩ | ⟨e, he, hdata⟩ := hagrees
      · rw [h] at hv
        cases hv
      · rw [h] at he
        cases he
        cases hdata

/-- A read by index that fails leaves the machine as it was. -/
theorem machine_of_pushResult_eq_error {x : Except Fault Word} {e : Fault}
    (h : ((ofExcept x >>= push) m).result = .error e) : ((ofExcept x >>= push) m).machine = m := by
  cases x with
  | error fault => rfl
  | ok value => cases h

/-- A stack that is too short is found out before anything happens: the machine stays as it
was, and the fault names the values that are taken and the height of the stack.  Only
`SELECT_LTE` is different.  It takes the threshold first, so that a lack of reports costs it
the threshold, and its fault tells of one value where there is none, and else of the reports
without the threshold.

A stack underflow means that the stack is too short, except where `CONSTANT` and `STACK` read
past the end; they take nothing, and leave the machine as it was. -/
theorem short_stack_is_kept_except_threshold (env : Environment)
    (nested : Option (Nat → Action Unit)) {instruction : Instruction} (operand : UInt8)
    (m : Machine) (hzipmap : instruction ≠ .zipmap) :
    (∀ needed available, (execute env nested instruction operand m).result
        = .error (.stackUnderflow needed available) →
      if instruction = .constant ∨ instruction = .stack then
        (execute env nested instruction operand m).machine = m
      else m.height < instruction.taken operand) ∧
    (m.height < instruction.taken operand → instruction ≠ .selectLte →
      execute env nested instruction operand m
        = ⟨.error (.stackUnderflow (instruction.taken operand) m.height), m, []⟩) ∧
    (m.height < instruction.taken operand → instruction = .selectLte →
      (m.stack = [] → execute env nested instruction operand m
        = ⟨.error (.stackUnderflow 1 0), m, []⟩) ∧
      ∀ reports threshold, m.stack = reports ++ [threshold] →
        execute env nested instruction operand m
          = ⟨.error (.stackUnderflow (instruction.taken operand - 1) reports.length),
              { m with stack := reports }, []⟩) := by
  refine ⟨fun needed available hfault => ?_, fun hshort hselect => ?_, ?_⟩
  · split
    · next hread =>
        obtain rfl | rfl := hread
        · rw [execute, fetchConstant_apply] at hfault ⊢
          exact machine_of_pushResult_eq_error hfault
        · rw [execute, copyStack_apply] at hfault ⊢
          exact machine_of_pushResult_eq_error hfault
    · next hread =>
        obtain ⟨hconstant, hstack⟩ := not_or.mp hread
        exact height_lt_taken_of_underflow env nested hconstant hstack hzipmap hfault
  · exact demands_execute env nested operand hzipmap hselect m hshort
  · rintro hshort rfl
    -- a refused operand takes no values, so this one is accepted
    cases hdecode : Selection.decode operand with
    | error refusal =>
        rw [Instruction.taken, Instruction.effect?, hdecode] at hshort
        exact absurd hshort (Nat.not_lt_zero _)
    | ok selection =>
        rw [taken_selectLte hdecode] at hshort ⊢
        refine ⟨fun hempty => selectLte_apply_of_empty hdecode hempty,
          fun reports threshold hstack => ?_⟩
        have hheight : m.height = reports.length + 1 := by
          rw [Machine.height, hstack, List.length_append, List.length_singleton]
        rw [Nat.add_sub_cancel_left]
        exact selectLte_apply_of_short hdecode hstack (by omega)

/-- `SELECT_LTE` of two reports on a stack of two values. -/
theorem short_stack_is_kept_except_threshold_of_two_reports :
    let m : Machine := { Machine.ofProgram ⟨[], [], 0, 0⟩ with
      stack := [Word.ofSmall 5, Word.ofSmall 7] }
    Instruction.selectLte ≠ .zipmap ∧ m.height < Instruction.selectLte.taken 0x02 ∧
      Instruction.eagerIf ≠ .zipmap ∧ m.height < Instruction.eagerIf.taken 0x00 ∧
      execute {} none .selectLte 0x02 m
        = ⟨.error (.stackUnderflow 2 1), { m with stack := [Word.ofSmall 5] }, []⟩ ∧
      execute {} none .eagerIf 0x00 m = ⟨.error (.stackUnderflow 3 2), m, []⟩ := by
  intro m
  have hselect : m.height < Instruction.selectLte.taken 0x02 := by decide
  have heager : m.height < Instruction.eagerIf.taken 0x00 := by decide
  refine ⟨by decide, hselect, by decide, heager, ?_, ?_⟩
  · exact ((short_stack_is_kept_except_threshold {} none 0x02 m (by decide)).2.2 hselect rfl).2
      [Word.ofSmall 5] (Word.ofSmall 7) rfl
  · exact (short_stack_is_kept_except_threshold {} none 0x00 m (by decide)).2.1 heager (by decide)

/-- With one report asked for and a threshold alone on the stack, the threshold is lost, and
the fault names neither the two values that are taken nor the one that was there. -/
theorem selectLte_loses_threshold :
    let m : Machine := { Machine.ofProgram ⟨[], [], 0, 0⟩ with stack := [Word.ofSmall 5] }
    let outcome := execute {} none .selectLte 0x01 m
    m.height = 1 ∧ Instruction.selectLte.taken 0x01 = 2 ∧
      outcome.result = .error (.stackUnderflow 1 0) ∧ outcome.machine ≠ m := by
  intro m outcome
  have houtcome : outcome = ⟨.error (.stackUnderflow 1 0), { m with stack := [] }, []⟩ := rfl
  rw [houtcome]
  exact ⟨rfl, rfl, rfl, by decide⟩

end Action

end WordMachine
