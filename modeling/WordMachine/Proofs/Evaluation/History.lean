import WordMachine.Fixtures
import WordMachine.Proofs.Evaluation.Workspace

/-!
# Runs of one machine are independent

A machine can be used again and again: its sources are evaluated on what earlier
evaluations have left, or run from empty stacks.  A use that ends in a fault leaves its
stack behind as it is, so anything at all may lie on the stack before the next run.  But
it lies on the stack only.  Whatever was done with a machine before, what is not the stack
is as it was in the beginning, and a run starts by taking the stack away.

## Main definitions

* `Call` — a use of a machine
* `Machine.afterCalls` — the machine that uses in a row leave behind

## Main results

* `Call.unstacked_after`, `Machine.unstacked_afterCalls` — one use, and any history of
  uses, leaves nothing behind but a stack
* `run_is_independent_of_history` — a run on a used machine is a run on a new one
-/

namespace WordMachine

/-- A use of a machine. -/
inductive Call where
  /-- Evaluates a source on the machine as it is. -/
  | evaluate (env : Environment) (index : Nat)
  /-- Evaluates a source from empty stacks and takes the final stack away. -/
  | run (env : Environment) (entry : Nat)

/-- The machine that a use leaves behind, whether it ends well or in a fault. -/
def Call.after (table : Table) (m : Machine) : Call → Machine
  | .evaluate env index => (WordMachine.evaluate table env index m).machine
  | .run env entry => (WordMachine.run table env entry m).machine

/-- The machine that uses in a row leave behind. -/
def Machine.afterCalls (table : Table) (m : Machine) (calls : List Call) : Machine :=
  calls.foldl (Call.after table) m

/-! ## What a run does -/

/-- A run sees nothing of the stacks that it finds. -/
theorem run_eq_of_reset_eq {m m' : Machine} (h : m'.reset = m.reset) (table : Table)
    (env : Environment) (entry : Nat) : run table env entry m' = run table env entry m := by
  rw [run_eq_evaluate, run_eq_evaluate, h]

/-! ## What uses leave behind -/

section

variable {table : Table} (htable : table.KeepsRest)
include htable

private theorem unstacked_evaluate (env : Environment) (index : Nat) (m : Machine) :
    (evaluate table env index m).machine.unstacked = m.unstacked :=
  Action.keepsRest_iff_keeps.mp (Evaluation.keepsRest_nested htable env _ index) m

/-- What a run leaves behind, but for the stack, is the machine that it began with. -/
theorem unstacked_run (env : Environment) (entry : Nat) (m : Machine) :
    (run table env entry m).machine.unstacked = m.reset := by
  have hkept : (evaluate table env entry m.reset).machine.unstacked = m.reset :=
    unstacked_evaluate htable env entry m.reset
  rw [run_eq_evaluate]
  split
  · next heq =>
      rw [heq] at hkept
      exact hkept
  · next heq =>
      rw [heq] at hkept
      exact hkept

/-- One use of a machine that is new but for its stack leaves another such machine. -/
theorem Call.unstacked_after {p : Program} {m : Machine}
    (hm : m.unstacked = Machine.ofProgram p) (call : Call) :
    (call.after table m).unstacked = Machine.ofProgram p := by
  cases call with
  | evaluate env index => exact (unstacked_evaluate htable env index m).trans hm
  | run env entry =>
      refine (unstacked_run htable env entry m).trans ?_
      show m.unstacked.reset = Machine.ofProgram p
      rw [hm]
      rfl

/-- Any history of uses leaves nothing behind but a stack. -/
theorem Machine.unstacked_afterCalls {p : Program} {m : Machine}
    (hm : m.unstacked = Machine.ofProgram p) (calls : List Call) :
    (m.afterCalls table calls).unstacked = Machine.ofProgram p := by
  induction calls generalizing m with
  | nil => exact hm
  | cons call rest ih => exact ih (call.unstacked_after htable hm)

end

/-- Runs of one machine are independent.  Let a machine be used in any way, each use ending
well or in a fault.  A run on it then has the outcome that it has on a new machine: the
same values or the same fault, the same events, and the same machine left behind.  After a
run that ends well this machine is like new, with an empty stack. -/
theorem run_is_independent_of_history {table : Table} (htable : table.KeepsRest) (p : Program)
    (calls : List Call) (env : Environment) (entry : Nat) :
    let used := (Machine.ofProgram p).afterCalls table calls
    run table env entry used = run table env entry (Machine.ofProgram p) ∧
    ∀ values, (run table env entry used).result = .ok values →
      (run table env entry used).machine.stack = [] ∧
      (run table env entry used).machine = Machine.ofProgram p := by
  intro used
  have hused : used.unstacked = Machine.ofProgram p :=
    Machine.unstacked_afterCalls htable rfl calls
  have hreset : used.reset = Machine.ofProgram p := by
    show used.unstacked.reset = Machine.ofProgram p
    rw [hused]
    rfl
  refine ⟨run_eq_of_reset_eq hreset table env entry, ?_⟩
  intro values hvalues
  have hstack : (run table env entry used).machine.stack = [] := by
    rw [run_eq_evaluate] at hvalues ⊢
    split at hvalues
    · rfl
    · cases hvalues
  refine ⟨hstack, ?_⟩
  rw [← hreset, ← unstacked_run htable env entry used]
  exact Machine.ext hstack rfl rfl rfl rfl rfl rfl

/-- Evaluations and a run, two of which divide by zero in a source that `ZIPMAP` evaluates,
leave values on the stack.  A handler that pushes its height would show them. -/
theorem run_is_independent_of_history_after_fault :
    let table := Table.standard.register .locals 200 Handler.pushHeight
    let p : Program := ⟨
      [ [200, 0],
        [200, 0, Instruction.constant.opcode, 0, Instruction.zipmap.opcode, 0x02],
        [Instruction.constant.opcode, 0x80, Instruction.constant.opcode, 0x80,
          Instruction.div.opcode, 2] ],
      [Word.zero], 2, 1⟩
    let calls : List Call := [.evaluate {} 0, .run {} 1, .evaluate {} 0, .evaluate {} 1]
    table.KeepsRest ∧
      ((Machine.ofProgram p).afterCalls table calls).stack
        = [Word.zero, Word.one, Word.ofSmall 2] ∧
      (run table {} 0 ((Machine.ofProgram p).afterCalls table calls)).result
        = .ok [Word.zero] ∧
      (run table {} 0 ((Machine.ofProgram p).afterCalls table calls)).machine
        = Machine.ofProgram p := by
  intro table p calls
  have htable : table.KeepsRest := Table.keepsRest_standard.register
    (fun _ _ => (Action.KeepsRest.look _).bind fun _ => (Action.StackLocal.push _).keeps)
    .locals 200
  obtain ⟨hsame, hnew⟩ := run_is_independent_of_history htable p calls {} 0
  have hresult : (run table {} 0 ((Machine.ofProgram p).afterCalls table calls)).result
      = .ok [Word.zero] := by
    rw [hsame]
    rfl
  exact ⟨htable, by decide +kernel, hresult, (hnew _ hresult).2⟩

end WordMachine
