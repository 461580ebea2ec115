import WordMachine.Proofs.Evaluation.Placement

/-!
# What instructions do to the height of the stack

An instruction takes a number of values and leaves a number of values that its operand
alone decides.  So the height after it is known from the *outline* of a machine, which has
the sizes of its stack, pool and innermost frame but none of their words.  An instruction
either leaves the height that is foretold so, or it ends in a fault that depends on data,
such as an overflow or a query without an answer.

## Main definitions

* `Outline`, `Machine.outline` — what can be seen of a machine without its words
* `Instruction.effect?` — how many values an instruction takes and leaves
* `Outcome.Agrees`, `Action.Reshapes` — outcomes and actions with a height foretold

## Main results

* `Action.Reshapes.bind` — the heights of actions in a row
* `Action.reshapes_execute` — the effects of the instructions that see only the top
* `Action.Reshapes.fetchConstant`, `Action.Reshapes.copyStack` — the reads by index
-/

namespace WordMachine

/-! ## Outlines -/

/-- What can be seen of a machine without looking at a word. -/
@[ext]
structure Outline where
  sources : List Source
  /-- The number of constants. -/
  pool : Nat
  /-- The height of the stack. -/
  height : Nat
  /-- The length of the innermost frame. -/
  frame : Nat
  /-- The number of open frames. -/
  depth : Nat
  deriving DecidableEq

/-- The outline of a machine. -/
def Machine.outline (m : Machine) : Outline where
  sources := m.sources
  pool := m.constants.length
  height := m.height
  frame := m.currentFrame.length
  depth := m.depth

/-- How many values an instruction takes and how many it leaves, if it accepts its
operand.  The instructions that look further than the top of the stack are not here. -/
def Instruction.effect? (instruction : Instruction) (operand : UInt8) : Option (Nat × Nat) :=
  match instruction with
  | .constant | .stack | .zipmap | .context | .storage => none
  | .debug => (Inspection.decode operand).toOption.map fun _ => (0, 0)
  | .blockNumber | .sender | .thisAddress | .blockTimestamp => some (0, 1)
  | .erc20TotalSupply | .scale18 | .scaleBy | .scaleN | .isZero => some (1, 1)
  | .erc20BalanceOf | .erc20SnapshotTotalSupplyAt | .erc721BalanceOf | .erc721OwnerOf
  | .scale18Div | .scale18Mul | .equalTo | .greaterThan | .lessThan | .saturatingDiff =>
    some (2, 1)
  | .erc20SnapshotBalanceOfAt | .erc1155BalanceOf | .eagerIf => some (3, 1)
  | .erc1155BalanceOfBatch => some (1 + 2 * operand.toNat, operand.toNat)
  | .tierReport => some (2 + operand.toNat, 1)
  | .tierReportTimeForTier => some (3 + operand.toNat, 1)
  | .any | .every | .saturatingAdd | .saturatingMul | .saturatingSub | .add | .div | .exp
  | .max | .min | .mod | .mul | .sub =>
    (windowSize instruction operand).toOption.map fun n => (n, 1)
  | .selectLte => (Selection.decode operand).toOption.map fun s => (1 + s.count.toNat, 1)
  | .updateTimesForTierRange => (TierRange.decode operand).toOption.map fun _ => (2, 1)

namespace Outline

/-- The height after values are taken and others are left. -/
def effect (takes leaves : Nat) (s : Outline) : Option Nat :=
  if takes ≤ s.height then some (s.height - takes + leaves) else none

/-- The height after `CONSTANT`. -/
def fetched (operand : UInt8) (s : Outline) : Option Nat :=
  match Fetch.resolve operand s.pool with
  | .constant i => if i.toNat < s.pool then some (s.height + 1) else none
  | .argument i => if i.toNat < s.frame then some (s.height + 1) else none

/-- The height after `STACK`. -/
def copied (operand : UInt8) (s : Outline) : Option Nat :=
  if operand.toNat < s.height then some (s.height + 1) else none

end Outline

/-! ## Heights that are foretold -/

variable {α β : Type}

/-- The outcome has the height that was foretold, or it is a fault that depends on data.
If no height was foretold, it is a fault of any kind. -/
def Outcome.Agrees (o : Outcome α) : Option Nat → Prop
  | some height =>
    ((∃ v, o.result = .ok v) ∧ o.machine.height = height) ∨
      ∃ e, o.result = .error e ∧ e.dependsOnData
  | none => ∃ e, o.result = .error e

namespace Outcome.Agrees

private theorem of_ok {o : Outcome α} {v : α} {height : Nat} (h : o.result = .ok v)
    (hheight : o.machine.height = height) : o.Agrees (some height) :=
  .inl ⟨⟨v, h⟩, hheight⟩

/-- A fault that depends on data agrees with everything. -/
theorem of_data {o : Outcome α} {e : Fault} (h : o.result = .error e) (hdata : e.dependsOnData)
    (foretold : Option Nat) : o.Agrees foretold := by
  cases foretold with
  | none => exact ⟨e, h⟩
  | some height => exact .inr ⟨e, h, hdata⟩

/-- Only the result and the machine count. -/
theorem congr {o o' : Outcome α} (hresult : o.result = o'.result)
    (hmachine : o.machine = o'.machine) {foretold : Option Nat} (h : o'.Agrees foretold) :
    o.Agrees foretold := by
  cases foretold with
  | none => simpa only [Agrees, hresult] using h
  | some height => simpa only [Agrees, hresult, hmachine] using h

end Outcome.Agrees

namespace Action

/-- The action changes nothing but the stack, and the height it leaves is foretold by the
outline of the machine. -/
structure Reshapes (a : Action α) (f : Outline → Option Nat) : Prop where
  keeps : a.KeepsRest
  agrees : ∀ m, (a m).Agrees (f m.outline)

theorem KeepsRest.outline {a : Action α} (h : a.KeepsRest) (m : Machine) :
    (a m).machine.outline = { m.outline with height := (a m).machine.height } := by
  rw [h m]
  rfl

namespace Reshapes

private theorem of_eq {a : Action α} {f g : Outline → Option Nat} (h : a.Reshapes f)
    (hfg : ∀ s, f s = g s) : a.Reshapes g :=
  ⟨h.keeps, fun m => hfg m.outline ▸ h.agrees m⟩

/-- The second action starts from the height that was foretold for the first. -/
theorem bind_of_agrees {first : Action α} {next : α → Action β} {f g : Outline → Option Nat}
    (hfirst : first.Reshapes f) (hkeeps : ∀ v, (next v).KeepsRest)
    (hnext : ∀ m v, (first m).result = .ok v →
      (next v (first m).machine).Agrees (g (first m).machine.outline)) :
    (first >>= next).Reshapes fun s => (f s).bind fun height => g { s with height := height } := by
  refine ⟨hfirst.keeps.bind hkeeps, fun m => ?_⟩
  have hmid := hfirst.agrees m
  cases hf : f m.outline with
  | none =>
      rw [hf] at hmid
      obtain ⟨e, he⟩ := hmid
      exact ⟨e, by rw [bind_error he]⟩
  | some height =>
      rw [hf] at hmid
      rcases hmid with ⟨⟨v, hv⟩, hheight⟩ | ⟨e, he, hdata⟩
      · have hend := hnext m v hv
        rw [hfirst.keeps.outline, hheight] at hend
        exact .congr (bind_result_ok hv) (bind_machine_ok hv) hend
      · exact .of_data (by rw [bind_error he]) hdata _

theorem bind {first : Action α} {next : α → Action β} {f g : Outline → Option Nat}
    (hfirst : first.Reshapes f) (hnext : ∀ v, (next v).Reshapes g) :
    (first >>= next).Reshapes fun s => (f s).bind fun height => g { s with height := height } :=
  hfirst.bind_of_agrees (fun v => (hnext v).keeps) fun _ v _ => (hnext v).agrees _

/-- Values that are taken one after the other are taken together. -/
theorem bind_effect {first : Action α} {next : α → Action β} {takes takes' leaves : Nat}
    (hfirst : first.Reshapes (Outline.effect takes 0))
    (hnext : ∀ v, (next v).Reshapes (Outline.effect takes' leaves)) :
    (first >>= next).Reshapes (Outline.effect (takes + takes') leaves) := by
  refine (hfirst.bind hnext).of_eq fun s => ?_
  unfold Outline.effect
  split
  · simp only [Option.bind_some, Nat.add_zero]
    split
    · rw [if_pos (by omega)]
      congr 1
      omega
    · rw [if_neg (by omega)]
  · rw [Option.bind_none, if_neg (by omega)]

/-- What takes nothing and leaves nothing does not show. -/
theorem after {first : Action α} {next : α → Action β} {takes leaves : Nat}
    (hfirst : first.Reshapes (Outline.effect 0 0))
    (hnext : ∀ v, (next v).Reshapes (Outline.effect takes leaves)) :
    (first >>= next).Reshapes (Outline.effect takes leaves) := by
  have h := hfirst.bind_effect hnext
  rwa [Nat.zero_add] at h

/-- Values are taken, and others left in their place. -/
theorem replace {first : Action α} {next : α → Action β} {takes leaves : Nat}
    (hfirst : first.Reshapes (Outline.effect takes 0))
    (hnext : ∀ v, (next v).Reshapes (Outline.effect 0 leaves)) :
    (first >>= next).Reshapes (Outline.effect takes leaves) :=
  hfirst.bind_effect hnext

theorem of_unchanged {a : Action α} {v : α}
    (h : ∀ m, (a m).result = .ok v ∧ (a m).machine = m) : a.Reshapes (Outline.effect 0 0) := by
  refine ⟨.of_machine_eq fun m => (h m).2, fun m => ?_⟩
  refine .of_ok (h m).1 ?_
  rw [(h m).2]
  rfl

private theorem fail {e : Fault} (h : e.dependsOnData) (f : Outline → Option Nat) :
    (fail e : Action α).Reshapes f :=
  ⟨.of_machine_eq fun _ => rfl, fun _ => .of_data rfl h _⟩

theorem fail_none (e : Fault) : (Action.fail e : Action α).Reshapes fun _ => none :=
  ⟨.of_machine_eq fun _ => rfl, fun _ => ⟨e, rfl⟩⟩

private theorem ofExcept {x : Except Fault α} (h : ∀ e, x = .error e → e.dependsOnData) :
    (ofExcept x).Reshapes (Outline.effect 0 0) := by
  cases x with
  | ok v => exact of_unchanged fun _ => ⟨rfl, rfl⟩
  | error e => exact fail (h e rfl) _

private theorem pushMany (values : List Word) :
    (pushMany values).Reshapes (Outline.effect 0 values.length) := by
  refine ⟨fun _ => rfl, fun m => .of_ok rfl ?_⟩
  exact List.length_append

private theorem push (value : Word) : (push value).Reshapes (Outline.effect 0 1) := pushMany [value]

/-- Values are taken exactly if there are enough of them. -/
theorem takeTop (n : Nat) {view : List Word → Option α}
    (hview : ∀ window : List Word, window.length = n → (view window).isSome) :
    (takeTop n view).Reshapes (Outline.effect n 0) := by
  refine ⟨(StackLocal.takeTop n view).keeps, fun m => ?_⟩
  show (Action.takeTop n view m).Agrees (if n ≤ m.height then _ else none)
  unfold Action.takeTop
  by_cases hn : n ≤ m.height
  · obtain ⟨v, hv⟩ := Option.isSome_iff_exists.mp (hview _ (Machine.length_top hn))
    simp only [hv, if_pos hn]
    refine .of_ok rfl ?_
    show (m.stack.take (m.height - n)).length = m.height - n
    rw [List.length_take]
    exact Nat.min_eq_left (Nat.sub_le _ _)
  · rw [if_neg hn]
    cases view (m.top n) with
    | none => exact ⟨_, rfl⟩
    | some v => simp only [if_neg hn]; exact ⟨_, rfl⟩

private theorem pop : Action.pop.Reshapes (Outline.effect 1 0) := by
  rw [pop_eq_takeTop]
  refine takeTop 1 fun window h => ?_
  match window, h with
  | [a], _ => rfl

private theorem popPair : Action.popPair.Reshapes (Outline.effect 2 0) := by
  rw [popPair_eq_takeTop]
  refine takeTop 2 fun window h => ?_
  match window, h with
  | [a, b], _ => rfl

private theorem popTriple : Action.popTriple.Reshapes (Outline.effect 3 0) := by
  rw [popTriple_eq_takeTop]
  refine takeTop 3 fun window h => ?_
  match window, h with
  | [a, b, c], _ => rfl

theorem popMany (n : Nat) : (Action.popMany n).Reshapes (Outline.effect n 0) := by
  rw [popMany_eq_takeTop]
  exact takeTop n fun _ _ => rfl

private theorem popWindow {n : Nat} (hn : n ≠ 0) :
    (Action.popWindow n).Reshapes (Outline.effect n 0) := by
  rw [popWindow_eq_takeTop]
  refine takeTop n fun window h => ?_
  match window, h with
  | [], h => exact absurd h.symm hn
  | a :: rest, _ => rfl

private theorem popPairAnd (n : Nat) :
    (Action.popPairAnd n).Reshapes (Outline.effect (2 + n) 0) := by
  rw [popPairAnd_eq_takeTop]
  refine takeTop (2 + n) fun window h => ?_
  match window, h with
  | [], h | [_], h => simp only [List.length_cons, List.length_nil] at h; omega
  | a :: b :: rest, _ => rfl

private theorem popTripleAnd (n : Nat) :
    (Action.popTripleAnd n).Reshapes (Outline.effect (3 + n) 0) := by
  rw [popTripleAnd_eq_takeTop]
  refine takeTop (3 + n) fun window h => ?_
  match window, h with
  | [], h | [_], h | [_, _], h => simp only [List.length_cons, List.length_nil] at h; omega
  | a :: b :: c :: rest, _ => rfl

private theorem ask (env : Environment) (q : Query) :
    (ask env q).Reshapes (Outline.effect 0 0) := by
  rw [Action.ask]
  cases env.chain with
  | none => exact fail rfl _
  | some chain =>
      exact after (of_unchanged fun _ => ⟨rfl, rfl⟩) fun _ =>
        ofExcept fun _ he => dependsOnData_of_mapError_chain he

/-- An operand that is refused leaves no height. -/
theorem ofOperand_bind {x : Except OperandError α} {next : α → Action β} {e : α → Nat × Nat}
    (hnext : ∀ v, x = .ok v → (next v).Reshapes (Outline.effect (e v).1 (e v).2)) :
    (ofOperand x >>= next).Reshapes fun s =>
      (x.toOption.map e).bind fun e => s.effect e.1 e.2 := by
  cases x with
  | ok v =>
      rw [show ofOperand (.ok v) >>= next = next v from pure_bind v next]
      exact hnext v rfl
  | error refusal => exact fail_none (.invalidOperand refusal)

/-- An instruction over a window leaves one value. -/
theorem window (instruction : Instruction) (operand : UInt8)
    {next : Word × List Word → Action Unit}
    (hnext : ∀ top, (next top).Reshapes (Outline.effect 0 1)) :
    (do
      let n ← ofOperand (windowSize instruction operand)
      let top ← Action.popWindow n
      next top).Reshapes fun s =>
        ((windowSize instruction operand).toOption.map fun n => (n, 1)).bind
          fun e => s.effect e.1 e.2 := by
  refine ofOperand_bind fun n hn => ?_
  have hpos : n ≠ 0 := by
    rintro rfl
    unfold windowSize at hn
    split at hn
    · cases hn
    · next hne =>
        simp only [Except.ok.injEq] at hn
        exact hne (UInt8.toNat_inj.mp hn)
  exact (popWindow hpos).replace hnext

private theorem foldWindow (op : Arithmetic) (operand : UInt8) :
    (foldWindow op operand).Reshapes fun s =>
      ((windowSize op.instruction operand).toOption.map fun n => (n, 1)).bind
        fun e => s.effect e.1 e.2 :=
  window _ operand fun _ =>
    (ofExcept fun _ he => Arithmetic.dependsOnData_of_fold_eq_error he).after fun v => push v

private theorem scale (r : Rescaling) (operand : UInt8) :
    (scale r operand).Reshapes (Outline.effect 1 1) :=
  pop.replace fun _ =>
    (ofExcept fun _ he => Scale.dependsOnData_of_rescaling_eq_error he).after fun v => push v

private theorem scaleBinary {combine : Word → Word → Except Fault Word} (operand : UInt8)
    (h : ∀ a b e, combine a b = .error e → e.dependsOnData) :
    (scaleBinary combine operand).Reshapes (Outline.effect 2 1) :=
  popPair.replace fun _ =>
    (ofExcept fun _ he => Scale.dependsOnData_of_to18_eq_error he).after fun _ =>
      (ofExcept fun e he => h _ _ e he).after fun v => push v

/-- A batch of the wrong size is a fault of the chain. -/
theorem erc1155BalanceOfBatch (env : Environment) (operand : UInt8) :
    (erc1155BalanceOfBatch env operand).Reshapes
      (Outline.effect (1 + 2 * operand.toNat) operand.toNat) := by
  have hpos : 1 + 2 * operand.toNat ≠ 0 := by omega
  refine (popWindow hpos).replace fun values => (ask env _).after fun balances => ?_
  split
  · next hsize =>
      have hpush := pushMany balances
      rwa [hsize] at hpush
  · exact fail rfl _

private theorem tierReportTimeForTier (env : Environment) (operand : UInt8) :
    (tierReportTimeForTier env operand).Reshapes (Outline.effect (3 + operand.toNat) 1) := by
  refine (popTripleAnd _).replace fun values => ?_
  dsimp only
  split
  · exact fail rfl _
  · exact (ask env _).after fun time => push _

end Reshapes

/-- Every instruction but the three that look further takes and leaves as many values as
its effect says. -/
theorem reshapes_execute (env : Environment) (nested : Option (Nat → Action Unit))
    {instruction : Instruction} (operand : UInt8) (hconstant : instruction ≠ .constant)
    (hstack : instruction ≠ .stack) (hzipmap : instruction ≠ .zipmap) :
    (execute env nested instruction operand).Reshapes fun s =>
      (instruction.effect? operand).bind fun e => s.effect e.1 e.2 := by
  cases instruction with
  | constant => exact absurd rfl hconstant
  | stack => exact absurd rfl hstack
  | zipmap => exact absurd rfl hzipmap
  | context | storage => exact .fail_none _
  | debug =>
      exact .ofOperand_bind fun part _ => .of_unchanged fun _ => ⟨rfl, rfl⟩
  | erc20TotalSupply =>
      exact Reshapes.pop.replace fun _ => (Reshapes.ask env _).after fun _ => .push _
  | erc20BalanceOf | erc721BalanceOf | erc20SnapshotTotalSupplyAt | erc721OwnerOf =>
      exact Reshapes.popPair.replace fun _ => (Reshapes.ask env _).after fun _ => .push _
  | erc20SnapshotBalanceOfAt | erc1155BalanceOf =>
      exact Reshapes.popTriple.replace fun _ => (Reshapes.ask env _).after fun _ => .push _
  | erc1155BalanceOfBatch => exact .erc1155BalanceOfBatch env operand
  | blockNumber => exact (Reshapes.ask env _).after fun _ => .push _
  | sender | thisAddress =>
      exact (Reshapes.ofExcept fun _ he => dependsOnData_of_mapError_chain he).after
        fun _ => .push _
  | blockTimestamp =>
      exact (Reshapes.ask env _).after fun _ => (Reshapes.ask env _).after fun _ => .push _
  | scale18 | scaleBy | scaleN => exact .scale _ operand
  | scale18Div =>
      exact .scaleBinary operand fun _ _ _ h => Scale.dependsOnData_of_divideIn_eq_error h
  | scale18Mul =>
      exact .scaleBinary operand fun _ _ _ h => Scale.dependsOnData_of_multiply_eq_error h
  | any | every => exact .window _ operand fun _ => .push _
  | eagerIf => exact Reshapes.popTriple.replace fun _ => .push _
  | equalTo | greaterThan | lessThan | saturatingDiff =>
      exact Reshapes.popPair.replace fun _ => .push _
  | isZero => exact Reshapes.pop.replace fun _ => .push _
  | saturatingAdd => exact .foldWindow .saturatingAdd operand
  | saturatingMul => exact .foldWindow .saturatingMul operand
  | saturatingSub => exact .foldWindow .saturatingSub operand
  | add => exact .foldWindow .add operand
  | div => exact .foldWindow .div operand
  | exp => exact .foldWindow .exp operand
  | max => exact .foldWindow .max operand
  | min => exact .foldWindow .min operand
  | mod => exact .foldWindow .mod operand
  | mul => exact .foldWindow .mul operand
  | sub => exact .foldWindow .sub operand
  | tierReport =>
      exact (Reshapes.popPairAnd _).replace fun _ => (Reshapes.ask env _).after
        fun _ => .push _
  | tierReportTimeForTier => exact .tierReportTimeForTier env operand
  | selectLte =>
      exact .ofOperand_bind fun selection _ => Reshapes.pop.bind_effect fun _ =>
        (Reshapes.popMany _).replace fun _ => .push _
  | updateTimesForTierRange =>
      exact .ofOperand_bind fun range _ => Reshapes.popPair.replace fun _ => .push _

/-! ## Reads of constants, arguments and the stack -/

/-- A read by index pushes a value exactly if the index is in range. -/
theorem agrees_pushFetched (values : List Word) (index : UInt64) (m : Machine) :
    ((ofExcept (Machine.fetch values index) >>= push) m).Agrees
      (if index.toNat < values.length then some (m.height + 1) else none) := by
  unfold Machine.fetch
  by_cases h : index.toNat < values.length
  · rw [if_pos h, List.getElem?_eq_getElem h]
    exact .of_ok rfl List.length_append
  · rw [if_neg h, List.getElem?_eq_none (Nat.not_lt.mp h)]
    exact ⟨_, rfl⟩

theorem Reshapes.fetchConstant (operand : UInt8) :
    (fetchConstant operand).Reshapes (Outline.fetched operand) := by
  refine ⟨keepsRest_fetchConstant operand, fun m => ?_⟩
  rw [fetchConstant_apply]
  unfold readConstant Outline.fetched
  show (_ : Outcome Unit).Agrees (match Fetch.resolve operand m.constants.length with
    | .constant i => if i.toNat < m.constants.length then some (m.height + 1) else none
    | .argument i => if i.toNat < m.currentFrame.length then some (m.height + 1) else none)
  cases Fetch.resolve operand m.constants.length with
  | constant i => exact agrees_pushFetched _ _ m
  | argument i => exact agrees_pushFetched _ _ m

theorem Reshapes.copyStack (operand : UInt8) :
    (copyStack operand).Reshapes (Outline.copied operand) := by
  refine ⟨keepsRest_copyStack operand, fun m => ?_⟩
  rw [copyStack_apply]
  exact agrees_pushFetched _ _ m

end Action

end WordMachine
