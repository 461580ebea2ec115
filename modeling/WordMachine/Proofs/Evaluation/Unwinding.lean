import WordMachine.Fixtures
import WordMachine.Proofs.Evaluation.Steps

/-!
# Frames are unwound

An evaluation that ends in a fault has frames to close at every level of nesting, in
whichever lane the fault came up.  Here this is followed step by step.  At every moment,
before a fault and after it, closing the frames that the tasks still have to close gives
back the machine that the evaluation began with, but for its stack.  At the end there are
no tasks, so this machine is what the evaluation leaves behind.

On the way the frames stay in order, so the innermost frame, which instructions and
handlers read, is at every moment a part of the values that are there.

## Main definitions

* `Machine.WellFramed` — frames start one after the other, within the values
* `Machine.unwind` — a machine once tasks have closed their frames
* `Config.Restores` — a moment from which unwinding leads back to a machine

## Main results

* `Config.Restores.step`, `Config.Restores.iterate` — one step, and any number of steps
* `evaluate_restores_all_but_stack` — evaluations leave all but the stack as it was
-/

namespace WordMachine

namespace Machine

/-- The parts of a machine that are not its stack. -/
theorem unstacked_eq_iff {m m' : Machine} :
    m'.unstacked = m.unstacked ↔
      m'.arguments = m.arguments ∧ m'.frames = m.frames ∧ m'.constants = m.constants ∧
        m'.sources = m.sources ∧ m'.stackLength = m.stackLength ∧
        m'.argumentsLength = m.argumentsLength := by
  simp only [unstacked, Machine.mk.injEq, true_and]

/-! ## Frames in order -/

/-- No frame starts before the one around it, or beyond the end of the values. -/
def WellFramed (m : Machine) : Prop := List.Pairwise (· ≥ ·) (m.arguments.length :: m.frames)

instance (m : Machine) : Decidable m.WellFramed :=
  inferInstanceAs (Decidable (List.Pairwise (· ≥ ·) (m.arguments.length :: m.frames)))

/-- The stack has no part in it. -/
theorem WellFramed.of_unstacked_eq {m m' : Machine} (hm : m.WellFramed)
    (h : m'.unstacked = m.unstacked) : m'.WellFramed := by
  obtain ⟨harguments, hframes, -⟩ := unstacked_eq_iff.mp h
  unfold WellFramed
  rw [harguments, hframes]
  exact hm

private theorem WellFramed.openFrame {m : Machine} (hm : m.WellFramed) (values : List Word) :
    (m.openFrame values).WellFramed := by
  have hwithin := (List.pairwise_cons.mp hm).1
  show List.Pairwise (· ≥ ·)
    ((m.arguments ++ values).length :: m.arguments.length :: m.frames)
  rw [List.length_append]
  refine List.pairwise_cons.mpr ⟨?_, hm⟩
  intro base hbase
  rcases List.mem_cons.mp hbase with rfl | hbase
  · omega
  · have hle := hwithin base hbase
    omega

private theorem WellFramed.closeFrame {m : Machine} (hm : m.WellFramed) :
    m.closeFrame.WellFramed := by
  unfold Machine.closeFrame
  split
  · exact hm
  · next base outer hframes =>
      unfold WellFramed at hm
      rw [hframes] at hm
      obtain ⟨hwithin, hordered⟩ := List.pairwise_cons.mp hm
      have hbase : base ≤ m.arguments.length := hwithin base (by simp)
      show List.Pairwise (· ≥ ·) ((m.arguments.take base).length :: outer)
      rw [List.length_take, Nat.min_eq_left hbase]
      exact hordered

/-! ## Unwinding -/

/-- What is left of a machine, but for its stack, once tasks have closed their frames. -/
def unwind : List Task → Machine → Machine
  | [], m => m.unstacked
  | .close :: rest, m => unwind rest m.closeFrame
  | .source _ :: rest, m | .pairs _ :: rest, m | .lanes .. :: rest, m => unwind rest m

private theorem unstacked_closeFrame (m : Machine) :
    m.closeFrame.unstacked = m.unstacked.closeFrame := by
  unfold closeFrame
  rw [show m.unstacked.frames = m.frames from rfl]
  split
  · rfl
  · rfl

private theorem unwind_eq_of_unstacked_eq (tasks : List Task) {m m' : Machine}
    (h : m'.unstacked = m.unstacked) : unwind tasks m' = unwind tasks m := by
  induction tasks generalizing m m' with
  | nil => exact h
  | cons task rest ih =>
      cases task with
      | close =>
          apply ih
          rw [unstacked_closeFrame, unstacked_closeFrame, h]
      | _ => exact ih h

end Machine

namespace Config

variable {table : Table} {env : Environment} {origin m m' : Machine} {rest : List Task}

/-- The frames of a moment are in order, and unwinding it gives back all of a machine but
its stack. -/
structure Restores (origin : Machine) (c : Config) : Prop where
  framed : c.machine.WellFramed
  unwound : c.machine.unwind c.tasks = origin.unstacked

/-- The pairs of a source close no frames of their own. -/
theorem unwind_step_pairs (code : List (UInt8 × UInt8)) :
    Machine.unwind (step table env ⟨.pairs code :: rest, .ok (), m⟩).tasks
      = Machine.unwind rest := by
  cases code with
  | nil => rfl
  | cons head code =>
      obtain ⟨opcode, operand⟩ := head
      by_cases hzipmap : (table.route opcode operand).isZipmap
      · cases htake : (Action.takeZip operand m).result with
        | error fault =>
            rw [step_zipmap_error hzipmap htake]
            rfl
        | ok values =>
            rw [step_zipmap_ok hzipmap htake]
            rfl
      · rw [step_pair hzipmap]
        rfl

namespace Restores

theorem start (index : Nat) (hm : m.WellFramed) : (start index m).Restores m := ⟨hm, rfl⟩

/-- A step that changes only the stack, and no task that closes a frame. -/
theorem of_unstacked_eq {tasks : List Task} {result : Except Fault Unit}
    (h : m'.unstacked = m.unstacked) (htasks : Machine.unwind tasks = Machine.unwind rest)
    (hframed : m.WellFramed) (hunwound : m.unwind rest = origin.unstacked) :
    (⟨tasks, result, m'⟩ : Config).Restores origin := by
  refine ⟨hframed.of_unstacked_eq h, ?_⟩
  show Machine.unwind tasks m' = origin.unstacked
  rw [Machine.unwind_eq_of_unstacked_eq tasks h, htasks]
  exact hunwound

/-- One step, whether or not a fault has come before, leaves the way back as it was. -/
theorem step (htable : table.Keeps Machine.unstacked) {c : Config} (h : c.Restores origin) :
    (c.step table env).Restores origin := by
  obtain ⟨tasks, result, m⟩ := c
  obtain ⟨hframed, hunwound⟩ := h
  cases tasks with
  | nil => exact ⟨hframed, hunwound⟩
  | cons task rest =>
      cases task with
      | close =>
          rw [step_close]
          exact ⟨hframed.closeFrame, hunwound⟩
      | source index =>
          cases result with
          | error fault => exact of_unstacked_eq rfl rfl hframed hunwound
          | ok v =>
              rw [step_source]
              split
              · exact of_unstacked_eq rfl rfl hframed hunwound
              · split
                · exact of_unstacked_eq rfl rfl hframed hunwound
                · exact of_unstacked_eq rfl rfl hframed hunwound
      | pairs code =>
          cases result with
          | error fault => exact of_unstacked_eq rfl rfl hframed hunwound
          | ok v =>
              exact of_unstacked_eq (view_step_pairs Machine.stableView_unstacked htable code)
                (unwind_step_pairs code) hframed hunwound
      | lanes zip values lanes =>
          cases result with
          | error fault => exact of_unstacked_eq rfl rfl hframed hunwound
          | ok v =>
              cases lanes with
              | nil => exact of_unstacked_eq rfl rfl hframed hunwound
              | cons lane more =>
                  -- the one step that opens a frame comes with the task that closes it
                  refine ⟨hframed.openFrame _, ?_⟩
                  show Machine.unwind rest (m.openFrame _).closeFrame = origin.unstacked
                  rw [Machine.closeFrame_openFrame]
                  exact hunwound

/-- Any number of steps leaves the way back as it was. -/
theorem iterate (htable : table.Keeps Machine.unstacked) {c : Config} (h : c.Restores origin)
    (n : Nat) : ((Config.step table env)^[n] c).Restores origin :=
  Function.Iterate.rec (Restores origin) h (fun _ hc => hc.step htable) n

end Restores

end Config

/-- An evaluation leaves everything but the stack as it was, whether it ends well or in a
fault, and wherever the fault comes up.  At every moment of it the frames are in order, and
closing those that are still to be closed gives back all but the stack of the machine that
it began with. -/
theorem evaluate_restores_all_but_stack {table : Table} (htable : table.KeepsRest)
    (env : Environment) (index : Nat) {m : Machine} (hm : m.WellFramed) :
    let after := (evaluate table env index m).machine
    (after.arguments = m.arguments ∧ after.frames = m.frames ∧ after.constants = m.constants ∧
      after.sources = m.sources ∧ after.stackLength = m.stackLength ∧
      after.argumentsLength = m.argumentsLength) ∧
    ∀ n, ((Config.step table env)^[n] (.start index m)).Restores m := by
  intro after
  have hmoments : ∀ n, ((Config.step table env)^[n] (.start index m)).Restores m :=
    (Config.Restores.start index hm).iterate htable.keeps
  -- the steps end with no tasks left, where unwinding has nothing to do
  obtain ⟨n, hn⟩ : Config.Leads table env _ _ :=
    Config.leads_evaluate (htable.keepsView Machine.stableView_frames) index m
  have hend : after.unstacked = m.unstacked := by
    have hlast := (hmoments n).unwound
    rw [hn] at hlast
    exact hlast
  exact ⟨Machine.unstacked_eq_iff.mp hend, hmoments⟩

/-- A division by zero in the second lane of a `ZIPMAP` within a `ZIPMAP`, with a frame open
from before and a handler that has pushed the number of frames. -/
theorem evaluate_restores_all_but_stack_after_fault :
    let table := Table.standard.register .locals 200 Handler.pushDepth
    let m : Machine :=
      { stack := [Word.ofSmall 9], arguments := [Word.ofSmall 8, Word.ofSmall 7], frames := [1],
        constants := [⟨0, 0, 1, 0⟩],
        sources := [ [Instruction.constant.opcode, 0, Instruction.zipmap.opcode, 0x01],
          [Instruction.constant.opcode, 0x80, Instruction.zipmap.opcode, 0x0a],
          [200, 0, Instruction.constant.opcode, 0, Instruction.constant.opcode, 0x80,
            Instruction.div.opcode, 2] ],
        stackLength := 4, argumentsLength := 3 }
    table.KeepsRest ∧ m.WellFramed ∧
      (evaluate table {} 0 m).result = .error (.divisionByZero "DIV") ∧
      (evaluate table {} 0 m).machine.stack
        = [Word.ofSmall 9, Word.ofSmall 3, ⟨0, 0, 1, 0⟩, Word.ofSmall 3] ∧
      (evaluate table {} 0 m).machine.arguments = [Word.ofSmall 8, Word.ofSmall 7] ∧
      (evaluate table {} 0 m).machine.frames = [1] := by
  intro table m
  have htable : table.KeepsRest := Table.keepsRest_standard.register
    (fun _ _ => (Action.KeepsRest.look _).bind fun _ => (Action.StackLocal.push _).keeps)
    .locals 200
  have hm : m.WellFramed := by decide
  obtain ⟨⟨harguments, hframes, -⟩, -⟩ := evaluate_restores_all_but_stack htable {} 0 hm
  exact ⟨htable, hm, by decide +kernel, by decide +kernel, harguments, hframes⟩

end WordMachine
