import WordMachine.Log
import WordMachine.Machine.Basic

/-!
# Actions on a machine

An action changes a machine and ends with a value or a fault; either way the
machine it leaves behind is kept.  Beside it, an action yields the events that
an observer would see: log messages and chain queries, in order.

## Main definitions

* `Event`, `Outcome`, `Action` — what actions do
* `Action.pop`, `Action.popPair`, `Action.popTriple`, `Action.popMany`,
  `Action.popWindow` — taking values from the stack
* `Action.push`, `Action.pushMany` — putting values on it
-/

namespace WordMachine

/-- What an observer sees of an evaluation. -/
inductive Event where
  | logged (message : Log.Message)
  | asked (query : Query)
  deriving DecidableEq

/-- What an action leaves behind. -/
@[ext]
structure Outcome (α : Type) where
  result : Except Fault α
  machine : Machine
  events : List Event

/-- A change of a machine. -/
def Action (α : Type) := Machine → Outcome α

namespace Action

variable {α β : Type}

/-- Yields a value and does nothing. -/
def pure (value : α) : Action α := fun m => ⟨.ok value, m, []⟩

/-- One action and then, unless it ends in a fault, another. -/
def bind (first : Action α) (next : α → Action β) : Action β := fun m =>
  match first m with
  | ⟨.ok value, m', events⟩ =>
    let ⟨result, m'', further⟩ := next value m'
    ⟨result, m'', events ++ further⟩
  | ⟨.error fault, m', events⟩ => ⟨.error fault, m', events⟩

instance : Monad Action where
  pure := pure
  bind := bind

@[simp]
theorem pure_apply (value : α) (m : Machine) :
    (Pure.pure value : Action α) m = ⟨.ok value, m, []⟩ := rfl

/-- After a value, the second action goes on from the machine that the first
one left, and its events come later. -/
theorem bind_apply_ok {first : Action α} {next : α → Action β} {m m' : Machine} {value : α}
    {events : List Event} (h : first m = ⟨.ok value, m', events⟩) :
    (first >>= next) m
      = ⟨(next value m').result, (next value m').machine,
          events ++ (next value m').events⟩ := by
  change bind first next m = _
  rw [bind, h]

/-- After a fault, there is no second action. -/
theorem bind_apply_error {first : Action α} {next : α → Action β} {m m' : Machine}
    {fault : Fault} {events : List Event} (h : first m = ⟨.error fault, m', events⟩) :
    (first >>= next) m = ⟨.error fault, m', events⟩ := by
  change bind first next m = _
  rw [bind, h]

/-- Doing nothing after an action changes nothing. -/
theorem bind_pure_eq (action : Action α) : bind action pure = action := by
  funext m
  rw [bind]
  split <;> simp_all [pure]

/-- Three actions in a row can be grouped either way. -/
theorem bind_bind {γ : Type} (first : Action α) (second : α → Action β)
    (third : β → Action γ) :
    bind (bind first second) third = bind first fun a => bind (second a) third := by
  funext m
  simp only [bind]
  rcases first m with ⟨result, m', events⟩
  cases result with
  | error fault => rfl
  | ok value =>
    simp only
    rcases second value m' with ⟨result, m'', further⟩
    cases result with
    | error fault => rfl
    | ok value => simp [List.append_assoc]

instance : LawfulMonad Action :=
  LawfulMonad.mk' Action (fun action => bind_pure_eq action) (fun _ _ => rfl) bind_bind

/-- Ends in a fault. -/
def fail (fault : Fault) : Action α := fun m => ⟨.error fault, m, []⟩

/-- Looks at the machine. -/
def look (view : Machine → α) : Action α := fun m => ⟨.ok (view m), m, []⟩

/-- Changes the machine. -/
def change (f : Machine → Machine) : Action Unit := fun m => ⟨.ok (), f m, []⟩

/-- Shows an event. -/
def emit (event : Event) : Action Unit := fun m => ⟨.ok (), m, [event]⟩

/-- Logs a message. -/
def log (level : Log.Level) (text : String) : Action Unit := emit (.logged ⟨level, text⟩)

/-- Yields a value or ends in a fault. -/
def ofExcept : Except Fault α → Action α
  | .ok value => pure value
  | .error fault => fail fault

/-- Yields what an operand means, or ends in the fault that it is refused. -/
def ofOperand : Except OperandError α → Action α
  | .ok value => pure value
  | .error e => fail (.invalidOperand e)

/-! ## Taking values from the stack

Each of these takes a fixed number of values at once.  If the stack is too
short, it is left as it is. -/

/-- The fault of taking more values than there are. -/
def underflow (needed : Nat) : Action α := fun m =>
  ⟨.error (.stackUnderflow needed m.height), m, []⟩

/-- Takes the top value. -/
def pop : Action Word := fun m =>
  match m.top 1 with
  | [a] => ⟨.ok a, m.dropTop 1, []⟩
  | _ => underflow 1 m

/-- Takes two values, deepest first. -/
def popPair : Action (Word × Word) := fun m =>
  match m.top 2 with
  | [a, b] => ⟨.ok (a, b), m.dropTop 2, []⟩
  | _ => underflow 2 m

/-- Takes three values, deepest first. -/
def popTriple : Action (Word × Word × Word) := fun m =>
  match m.top 3 with
  | [a, b, c] => ⟨.ok (a, b, c), m.dropTop 3, []⟩
  | _ => underflow 3 m

/-- Takes `n` values, deepest first. -/
def popMany (n : Nat) : Action (List Word) := fun m =>
  if n ≤ m.height then ⟨.ok (m.top n), m.dropTop n, []⟩ else underflow n m

/-- Takes `n` values, of which there is at least one: the deepest and those
above it. -/
def popWindow (n : Nat) : Action (Word × List Word) := fun m =>
  match m.top n with
  | a :: rest =>
    if n ≤ m.height then ⟨.ok (a, rest), m.dropTop n, []⟩ else underflow n m
  | [] => underflow n m

/-- Takes two values and `n` more above them. -/
def popPairAnd (n : Nat) : Action (Word × Word × List Word) := fun m =>
  match m.top (2 + n) with
  | a :: b :: rest =>
    if 2 + n ≤ m.height then ⟨.ok (a, b, rest), m.dropTop (2 + n), []⟩
    else underflow (2 + n) m
  | _ => underflow (2 + n) m

/-- Takes three values and `n` more above them. -/
def popTripleAnd (n : Nat) : Action (Word × Word × Word × List Word) := fun m =>
  match m.top (3 + n) with
  | a :: b :: c :: rest =>
    if 3 + n ≤ m.height then ⟨.ok (a, b, c, rest), m.dropTop (3 + n), []⟩
    else underflow (3 + n) m
  | _ => underflow (3 + n) m

/-! ## Putting values on the stack -/

/-- Puts a value on top. -/
def push (value : Word) : Action Unit := change (·.pushAll [value])

/-- Puts values on top, the last one uppermost. -/
def pushMany (values : List Word) : Action Unit := change (·.pushAll values)

end Action

end WordMachine
