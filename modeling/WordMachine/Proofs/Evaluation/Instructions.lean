import WordMachine.Proofs.Evaluation.Placement

/-!
# What single instructions do

Each instruction takes its values from the top of the stack and leaves its result
there, whatever lies below and whichever frames are open.  These lemmas say so in
the words of workspaces: a pair of code, performed on a stack that ends with the
values it takes, ends with the result in their place, or in the instruction's own
fault.

## Main results

* `Program.pair_arithmetic`, `Program.performed_arithmetic` — folds over a window
* `Program.performed_any`, `Program.performed_every`, `Program.performed_eagerIf`,
  `Program.performed_comparison`, `Program.performed_isZero` — logic
* `Program.performed_constant`, `Program.performed_sender`,
  `Program.performed_blockTimestamp`, `Program.performed_tierReport` — values from the
  program and from outside
-/

namespace WordMachine

namespace Action

variable {α : Type}

/-! ## Taking values off a known stack -/

theorem takeTop_apply {n : Nat} {view : List Word → Option α} {m : Machine}
    {base window : List Word} (hstack : m.stack = base ++ window) (hlength : window.length = n)
    {v : α} (hview : view window = some v) :
    takeTop n view m = ⟨.ok v, { m with stack := base }, []⟩ := by
  have hheight : m.height = base.length + n := by
    rw [Machine.height, hstack, List.length_append, hlength]
  have htop : m.top n = window := by
    rw [Machine.top, hheight, Nat.add_sub_cancel, hstack, List.drop_left]
  have hbelow : m.below n = base := by
    rw [Machine.below, hheight, Nat.add_sub_cancel, hstack, List.take_left]
  simp only [takeTop, htop, hview]
  rw [if_pos (by omega), Machine.dropTop, hbelow]

variable {m : Machine} (base : List Word)

theorem pop_apply {a : Word} (h : m.stack = base ++ [a]) :
    pop m = ⟨.ok a, { m with stack := base }, []⟩ := by
  rw [pop_eq_takeTop]
  exact takeTop_apply h rfl rfl

private theorem popPair_apply {a b : Word} (h : m.stack = base ++ [a, b]) :
    popPair m = ⟨.ok (a, b), { m with stack := base }, []⟩ := by
  rw [popPair_eq_takeTop]
  exact takeTop_apply h rfl rfl

theorem popTriple_apply {a b c : Word} (h : m.stack = base ++ [a, b, c]) :
    popTriple m = ⟨.ok (a, b, c), { m with stack := base }, []⟩ := by
  rw [popTriple_eq_takeTop]
  exact takeTop_apply h rfl rfl

theorem popMany_apply {values : List Word} (h : m.stack = base ++ values) :
    popMany values.length m = ⟨.ok values, { m with stack := base }, []⟩ := by
  rw [popMany_eq_takeTop]
  exact takeTop_apply h rfl rfl

theorem popWindow_apply {first : Word} {rest : List Word} (h : m.stack = base ++ first :: rest) :
    popWindow (rest.length + 1) m = ⟨.ok (first, rest), { m with stack := base }, []⟩ := by
  rw [popWindow_eq_takeTop]
  exact takeTop_apply h rfl rfl

private theorem popPairAnd_apply {a b : Word} {rest : List Word}
    (h : m.stack = base ++ a :: b :: rest) :
    popPairAnd rest.length m = ⟨.ok (a, b, rest), { m with stack := base }, []⟩ := by
  rw [popPairAnd_eq_takeTop]
  exact takeTop_apply h (by simp only [List.length_cons]; omega) rfl

/-! ## Endings -/

private theorem ending_bind {first : Action α} {next : α → Action Unit} {m m' : Machine} {v : α}
    {events : List Event} (h : first m = ⟨.ok v, m', events⟩) :
    ((first >>= next) m).ending = (next v m').ending := by
  rw [bind_apply_ok h]
  rfl

/-- Pushing a result that may be a fault. -/
theorem ending_pushResult (x : Except Fault Word) (p : Program) (w : Workspace) :
    ((ofExcept x >>= push) (p.machine w)).ending
      = x.map fun v => { w with stack := w.stack ++ [v] } := by
  cases x with
  | error e => rfl
  | ok v => rfl

/-- A query that the chain answers yields the answer. -/
theorem ask_apply {env : Environment} {chain : Chain} (hchain : env.chain = some chain)
    {q : Query} {answer : q.Answer} (h : chain q = .ok answer) (m : Machine) :
    ask env q m = ⟨.ok answer, m, [.asked q]⟩ := by
  simp only [ask, hchain, h]
  rfl

/-- Only a chain that is there and answers gives an answer. -/
theorem chain_of_ask_eq_ok {env : Environment} {q : Query} {m : Machine} {answer : q.Answer}
    (h : (ask env q m).result = .ok answer) :
    ∃ chain, env.chain = some chain ∧ chain q = .ok answer := by
  rw [ask] at h
  cases hchain : env.chain with
  | none =>
      rw [hchain] at h
      cases h
  | some chain =>
      rw [hchain] at h
      obtain ⟨_, -, h⟩ := bind_result_eq_ok h
      cases hanswer : chain q with
      | error e =>
          rw [hanswer] at h
          cases h
      | ok v =>
          rw [hanswer] at h
          cases h
          exact ⟨chain, rfl, hanswer⟩

end Action

namespace Program

variable (p : Program) (env : Environment) (base arguments : List Word) (frames : List Nat)

/-! ## Arithmetic and logic -/

private theorem windowSize_eq_ok {instruction : Instruction} {operand : UInt8} {n : Nat}
    (h : operand.toNat = n + 1) : windowSize instruction operand = .ok (n + 1) := by
  have hne : operand ≠ 0 := by
    rintro rfl
    cases h
  rw [windowSize, if_neg hne, h]

/-- What an arithmetic instruction does with the window on top of the stack: it takes it off,
and pushes the result of the fold if there is one. -/
theorem pair_arithmetic (env : Environment) (nested : Option (Nat → Action Unit))
    (op : Arithmetic) {m : Machine} (base : List Word) {first : Word} {rest : List Word}
    (hstack : m.stack = base ++ first :: rest) {operand : UInt8}
    (hoperand : operand.toNat = rest.length + 1) :
    Evaluation.pair Table.standard env nested op.instruction.opcode operand m
      = match op.fold first rest with
        | .ok value => ⟨.ok (), { m with stack := base ++ [value] }, []⟩
        | .error fault => ⟨.error fault, { m with stack := base }, []⟩ := by
  have hexecute : Evaluation.pair Table.standard env nested op.instruction.opcode operand
      = Action.foldWindow op operand := by
    cases op <;> rfl
  rw [hexecute, Action.foldWindow, windowSize_eq_ok hoperand]
  refine (Action.bind_apply_ok rfl).trans ?_
  dsimp only
  rw [Action.bind_apply_ok (Action.popWindow_apply base hstack)]
  cases op.fold first rest with
  | ok value => rfl
  | error fault => rfl

/-- An arithmetic instruction folds the window on top of the stack. -/
theorem performed_arithmetic (op : Arithmetic) (first : Word) (rest : List Word)
    {operand : UInt8} (h : operand.toNat = rest.length + 1) :
    p.performed env [(op.instruction.opcode, operand)]
        ⟨base ++ first :: rest, arguments, frames⟩
      = (op.fold first rest).map fun v => ⟨base ++ [v], arguments, frames⟩ := by
  rw [performed, Evaluation.sequence, Evaluation.sequence, bind_pure_unit,
    pair_arithmetic env _ op base rfl h]
  cases op.fold first rest with
  | ok value => rfl
  | error fault => rfl

/-- An arithmetic instruction on two values makes one step. -/
theorem performed_arithmetic_pair (op : Arithmetic) (a b : Word) :
    p.performed env [(op.instruction.opcode, 2)] ⟨base ++ [a, b], arguments, frames⟩
      = (op.step a b).map fun v => ⟨base ++ [v], arguments, frames⟩ := by
  rw [performed_arithmetic p env base arguments frames op a [b] rfl, Arithmetic.fold]
  cases op.step a b with
  | error e => rfl
  | ok v => rfl

theorem performed_any (first : Word) (rest : List Word) {operand : UInt8}
    (h : operand.toNat = rest.length + 1) :
    p.performed env [(Instruction.any.opcode, operand)]
        ⟨base ++ first :: rest, arguments, frames⟩
      = .ok ⟨base ++ [Action.firstNonZero (first :: rest)], arguments, frames⟩ := by
  rw [performed_instruction p env (by decide) (by decide), Action.execute, Action.anyOf,
    windowSize_eq_ok h]
  refine (Action.ending_bind rfl).trans ?_
  exact Action.ending_bind (Action.popWindow_apply base rfl)

theorem performed_every (first : Word) (rest : List Word) {operand : UInt8}
    (h : operand.toNat = rest.length + 1) :
    p.performed env [(Instruction.every.opcode, operand)]
        ⟨base ++ first :: rest, arguments, frames⟩
      = .ok ⟨base ++ [Action.lastUnlessZero first rest], arguments, frames⟩ := by
  rw [performed_instruction p env (by decide) (by decide), Action.execute, Action.everyOf,
    windowSize_eq_ok h]
  refine (Action.ending_bind rfl).trans ?_
  exact Action.ending_bind (Action.popWindow_apply base rfl)

theorem performed_eagerIf (condition whenTrue whenFalse : Word) (operand : UInt8) :
    p.performed env [(Instruction.eagerIf.opcode, operand)]
        ⟨base ++ [condition, whenTrue, whenFalse], arguments, frames⟩
      = .ok ⟨base ++ [if condition.isZero then whenFalse else whenTrue], arguments,
          frames⟩ := by
  rw [performed_instruction p env (by decide) (by decide)]
  exact Action.ending_bind (Action.popTriple_apply base rfl)

/-- The instruction of a comparison. -/
def comparisonInstruction : Comparison → Instruction
  | .equal => .equalTo
  | .greater => .greaterThan
  | .less => .lessThan

theorem performed_comparison (c : Comparison) (a b : Word) (operand : UInt8) :
    p.performed env [((comparisonInstruction c).opcode, operand)]
        ⟨base ++ [a, b], arguments, frames⟩
      = .ok ⟨base ++ [Word.ofBool (c.holds a b)], arguments, frames⟩ := by
  have hcontext : comparisonInstruction c ≠ .context := by
    cases c <;> decide
  have hstorage : comparisonInstruction c ≠ .storage := by
    cases c <;> decide
  have hexecute : ∀ nested, Action.execute env nested (comparisonInstruction c) operand
      = Action.compare c := by
    intro nested
    cases c <;> rfl
  rw [performed_instruction p env hcontext hstorage, hexecute]
  exact Action.ending_bind (Action.popPair_apply base rfl)

theorem performed_isZero (a : Word) (operand : UInt8) :
    p.performed env [(Instruction.isZero.opcode, operand)] ⟨base ++ [a], arguments, frames⟩
      = .ok ⟨base ++ [Word.ofBool a.isZero], arguments, frames⟩ := by
  rw [performed_instruction p env (by decide) (by decide)]
  exact Action.ending_bind (Action.pop_apply base rfl)

/-! ## Values from the program and from outside -/

/-- `CONSTANT` pushes what its operand reads. -/
theorem performed_constant (operand : UInt8) (w : Workspace) :
    p.performed env [(Instruction.constant.opcode, operand)] w
      = (readConstant p.constants (p.machine w).currentFrame operand).map
          fun v => { w with stack := w.stack ++ [v] } := by
  rw [performed_instruction p env (by decide) (by decide), Action.execute,
    Action.fetchConstant_apply]
  exact Action.ending_pushResult _ p w

/-- A `CONSTANT` that reads a value pushes it. -/
theorem performed_constant_of_ok {p : Program} {env : Environment} {operand : UInt8}
    {w : Workspace} {v : Word}
    (h : readConstant p.constants (p.machine w).currentFrame operand = .ok v) :
    p.performed env [(Instruction.constant.opcode, operand)] w
      = .ok { w with stack := w.stack ++ [v] } := by
  rw [performed_constant, h]
  rfl

theorem performed_sender {signer : Address} (h : env.signer = some (.ok signer)) (operand : UInt8)
    (w : Workspace) :
    p.performed env [(Instruction.sender.opcode, operand)] w
      = .ok { w with stack := w.stack ++ [signer.toWord] } := by
  rw [performed_instruction p env (by decide) (by decide), Action.execute, Action.sender,
    Environment.requireSigner, h]
  rfl

/-- `BLOCK_TIMESTAMP` pushes the time that the chain answers for its current block. -/
theorem performed_blockTimestamp {chain : Chain} (hchain : env.chain = some chain)
    {block time : Word} (hblock : chain .blockNumber = .ok block)
    (htime : chain (.blockTimestamp block) = .ok time) (operand : UInt8) (w : Workspace) :
    p.performed env [(Instruction.blockTimestamp.opcode, operand)] w
      = .ok { w with stack := w.stack ++ [time] } := by
  rw [performed_instruction p env (by decide) (by decide), Action.execute, Action.blockTimestamp]
  refine (Action.ending_bind (Action.ask_apply hchain hblock _)).trans ?_
  exact Action.ending_bind (Action.ask_apply hchain htime _)

/-- `ITIERV2_REPORT` pushes the report that the chain answers. -/
theorem performed_tierReport {chain : Chain} (hchain : env.chain = some chain)
    (contract account : Word) (context : List Word) {operand : UInt8}
    (h : operand.toNat = context.length) {report : Word}
    (hreport : chain (.tierReport (.ofWord contract) (.ofWord account) context) = .ok report) :
    p.performed env [(Instruction.tierReport.opcode, operand)]
        ⟨base ++ contract :: account :: context, arguments, frames⟩
      = .ok ⟨base ++ [report], arguments, frames⟩ := by
  rw [performed_instruction p env (by decide) (by decide), Action.execute, Action.tierReport, h]
  refine (Action.ending_bind (Action.popPairAnd_apply base rfl)).trans ?_
  exact Action.ending_bind (Action.ask_apply hchain hreport _)

end Program

end WordMachine
