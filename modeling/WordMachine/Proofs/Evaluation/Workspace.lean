import WordMachine.Proofs.Evaluation.Keeps

/-!
# What an evaluation works on

The standard instructions read the constants and sources of a program and
change nothing but the stack.  So an evaluation is a function from workspaces
(a stack and argument frames) to workspaces or faults, and code in a row is the
composition of its parts.

## Main definitions

* `Workspace` — a stack and argument frames
* `Program.evaluated`, `Program.performed` — the effect of a source, or of
  pairs, of a program on a workspace
* `Program.output` — what a program leaves when it is run from empty stacks

## Main results

* `Program.performed_append` — code in a row is performed part by part
* `Program.evaluated_eq_performed` — a source is evaluated by performing it
-/

namespace WordMachine

/-! ## Workspaces -/

/-- The part of a machine that programs work on. -/
@[ext]
structure Workspace where
  stack : List Word
  arguments : List Word := []
  frames : List Nat := []
  deriving DecidableEq

/-- The number of open frames. -/
def Workspace.depth (w : Workspace) : Nat := w.frames.length

/-- The machine of a program on a workspace. -/
def Program.machine (p : Program) (w : Workspace) : Machine where
  stack := w.stack
  arguments := w.arguments
  frames := w.frames
  constants := p.constants
  sources := p.sources
  stackLength := p.stackLength
  argumentsLength := p.argumentsLength

/-- The workspace of a machine. -/
def Machine.workspace (m : Machine) : Workspace := ⟨m.stack, m.arguments, m.frames⟩

/-- What an action without a value comes to: a workspace or a fault. -/
def Outcome.ending (o : Outcome Unit) : Except Fault Workspace :=
  o.result.map fun _ => o.machine.workspace

/-- A run is the evaluation of its entry on the machine with empty stacks.  Only if it ends
well is the final stack taken away. -/
theorem run_eq_evaluate (table : Table) (env : Environment) (entry : Nat) (m : Machine) :
    run table env entry m
      = match evaluate table env entry m.reset with
        | ⟨.ok _, after, events⟩ => ⟨.ok after.stack, after.unstacked, events⟩
        | ⟨.error fault, after, events⟩ => ⟨.error fault, after, events⟩ := by
  have hreset : Action.change Machine.reset m = ⟨.ok (), m.reset, []⟩ := rfl
  rw [run, Action.bind_apply_ok hreset]
  rcases h : evaluate table env entry m.reset with ⟨result, after, events⟩
  cases result with
  | error fault =>
      rw [Action.bind_apply_error h]
      rfl
  | ok v =>
      rw [Action.bind_apply_ok h]
      show (⟨.ok after.stack, after.unstacked, events ++ []⟩ : Outcome (List Word)) = _
      rw [List.append_nil]

/-- A run evaluates from empty stacks and yields the final stack. -/
theorem run_result (table : Table) (env : Environment) (entry : Nat) (m : Machine) :
    (run table env entry m).result
      = (evaluate table env entry m.reset).result.map fun _ =>
          (evaluate table env entry m.reset).machine.stack := by
  rw [run_eq_evaluate]
  rcases evaluate table env entry m.reset with ⟨_ | _, after, events⟩
  · rfl
  · rfl

namespace Program

/-- The effect of a source of a program, with the standard instructions. -/
def evaluated (p : Program) (env : Environment) (index : Nat) (w : Workspace) :
    Except Fault Workspace :=
  (evaluate Table.standard env index (p.machine w)).ending

/-- The effect of pairs within a program, with the standard instructions. -/
def performed (p : Program) (env : Environment) (code : List (UInt8 × UInt8))
    (w : Workspace) : Except Fault Workspace :=
  (Evaluation.sequence Table.standard env
    (Evaluation.inner Table.standard env (maxDepth - w.depth)) code (p.machine w)).ending

/-- What a program leaves on the stack, run from its first source. -/
def output (p : Program) (env : Environment) : Except Fault (List Word) :=
  (run Table.standard env 0 (Machine.ofProgram p)).result

@[simp] theorem workspace_machine (p : Program) (w : Workspace) :
    (p.machine w).workspace = w := rfl

@[simp] theorem sources_machine (p : Program) (w : Workspace) :
    (p.machine w).sources = p.sources := rfl

/-- An action that changes only the stack stays with its program. -/
theorem machine_of_keepsRest {α : Type} {a : Action α} (h : a.KeepsRest) (p : Program)
    (w : Workspace) :
    (a (p.machine w)).machine
      = p.machine { w with stack := (a (p.machine w)).machine.stack } := by
  rw [h (p.machine w)]
  rfl

theorem performed_nil (p : Program) (env : Environment) (w : Workspace) :
    p.performed env [] w = .ok w := rfl

/-- Code in a row is performed part by part. -/
theorem performed_append (p : Program) (env : Environment)
    (first second : List (UInt8 × UInt8)) (w : Workspace) :
    p.performed env (first ++ second) w
      = (p.performed env first w).bind (p.performed env second) := by
  have hkeeps := Evaluation.keepsRest_sequence Table.keepsRest_standard env
    (Evaluation.keepsRest_inner Table.keepsRest_standard env (maxDepth - w.depth)) first
  have hmachine := machine_of_keepsRest hkeeps p w
  simp only [performed, Evaluation.sequence_append, Outcome.ending]
  cases hfirst : (Evaluation.sequence Table.standard env
      (Evaluation.inner Table.standard env (maxDepth - w.depth)) first (p.machine w)).result with
  | error e =>
      rw [Action.bind_error hfirst]
      rfl
  | ok v =>
      rw [Action.bind_result_ok hfirst, Action.bind_machine_ok hfirst, hmachine]
      rfl

theorem performed_cons (p : Program) (env : Environment) (opcode operand : UInt8)
    (rest : List (UInt8 × UInt8)) (w : Workspace) :
    p.performed env ((opcode, operand) :: rest) w
      = (p.performed env [(opcode, operand)] w).bind (p.performed env rest) :=
  performed_append p env [(opcode, operand)] rest w

/-- Code goes on from what the code before it leaves. -/
theorem performed_append_of_ok {p : Program} {env : Environment}
    {first : List (UInt8 × UInt8)} {w w' : Workspace} (h : p.performed env first w = .ok w')
    (second : List (UInt8 × UInt8)) :
    p.performed env (first ++ second) w = p.performed env second w' := by
  rw [performed_append, h]
  rfl

theorem performed_cons_of_ok {p : Program} {env : Environment} {opcode operand : UInt8}
    {w w' : Workspace} (h : p.performed env [(opcode, operand)] w = .ok w')
    (rest : List (UInt8 × UInt8)) :
    p.performed env ((opcode, operand) :: rest) w = p.performed env rest w' :=
  performed_append_of_ok h rest

/-- One pair is performed by its standard instruction. -/
theorem performed_instruction (p : Program) (env : Environment) {instruction : Instruction}
    (hcontext : instruction ≠ .context) (hstorage : instruction ≠ .storage) (operand : UInt8)
    (w : Workspace) :
    p.performed env [(instruction.opcode, operand)] w
      = (Action.execute env (Evaluation.inner Table.standard env (maxDepth - w.depth))
          instruction operand (p.machine w)).ending := by
  have hroute : Table.standard.route instruction.opcode operand = .standard instruction := by
    simp only [Table.route, Table.standard, Instruction.ofOpcode?_opcode]
  simp only [performed, Evaluation.sequence, Evaluation.pair, hroute]
  rw [bind_pure_unit]

/-- A source that exists and is whole is evaluated by performing its pairs. -/
theorem evaluated_eq_performed {p : Program} {index : Nat} {code : Source}
    (hcode : p.sources[index]? = some code) (hwhole : isWhole code) (env : Environment)
    (w : Workspace) : p.evaluated env index w = p.performed env (pairs code) w := by
  have hsource : Evaluation.nested Table.standard env (maxDepth - w.depth) index (p.machine w)
      = Evaluation.sequence Table.standard env
          (Evaluation.inner Table.standard env (maxDepth - w.depth)) (pairs code)
          (p.machine w) := by
    rw [Evaluation.nested_eq_source, Evaluation.source]
    change (Action.bind _ _) _ = _
    simp only [Action.bind, Action.look, sources_machine, hcode, hwhole, if_true,
      List.nil_append]
  exact congrArg Outcome.ending hsource

/-- An action that changes only the stack and ends well leaves the machine of its
program. -/
theorem machine_of_ending_eq_ok {a : Action Unit} (hkeeps : a.KeepsRest) {p : Program}
    {w w' : Workspace} (h : (a (p.machine w)).ending = .ok w') :
    (a (p.machine w)).result = .ok () ∧ (a (p.machine w)).machine = p.machine w' := by
  have hmachine := machine_of_keepsRest hkeeps p w
  cases hresult : (a (p.machine w)).result with
  | error e =>
      rw [Outcome.ending, hresult] at h
      cases h
  | ok v =>
      rw [Outcome.ending, hresult, hmachine] at h
      cases h
      exact ⟨rfl, hmachine⟩

/-- An action that changes only the stack leaves the frames as they were. -/
theorem frames_of_keepsRest {a : Action Unit} (hkeeps : a.KeepsRest) {p : Program}
    {w w' : Workspace} (h : (a (p.machine w)).ending = .ok w') :
    w' = { w with stack := w'.stack } := by
  have hmachine := (machine_of_ending_eq_ok hkeeps h).2
  rw [machine_of_keepsRest hkeeps p w] at hmachine
  have hworkspace := congrArg Machine.workspace hmachine
  rw [workspace_machine, workspace_machine] at hworkspace
  rw [← hworkspace]

theorem frames_of_evaluated_eq_ok {p : Program} {env : Environment} {index : Nat}
    {w w' : Workspace} (h : p.evaluated env index w = .ok w') :
    w' = { w with stack := w'.stack } :=
  frames_of_keepsRest (Evaluation.keepsRest_nested Table.keepsRest_standard env
    (maxDepth - w.depth) index) h

/-- A run is the evaluation of the first source on an empty workspace. -/
theorem output_eq_evaluated (p : Program) (env : Environment) :
    p.output env = (p.evaluated env 0 ⟨[], [], []⟩).map Workspace.stack := by
  have hreset : (Machine.ofProgram p).reset = p.machine ⟨[], [], []⟩ := rfl
  rw [output, run_result, hreset, evaluated, Outcome.ending]
  cases (evaluate Table.standard env 0 (p.machine ⟨[], [], []⟩)).result with
  | error e => rfl
  | ok v => rfl

/-- A program leaves values exactly if the evaluation of its first source
does. -/
theorem output_eq_ok_iff {p : Program} {env : Environment} {values : List Word} :
    p.output env = .ok values ↔ p.evaluated env 0 ⟨[], [], []⟩ = .ok ⟨values, [], []⟩ := by
  rw [output_eq_evaluated]
  constructor
  · intro h
    cases hw : p.evaluated env 0 ⟨[], [], []⟩ with
    | error e =>
        rw [hw] at h
        cases h
    | ok w =>
        have hframes := frames_of_evaluated_eq_ok hw
        rw [hw] at h
        cases h
        rw [hframes]
  · intro h
    rw [h]
    rfl

end Program

end WordMachine
