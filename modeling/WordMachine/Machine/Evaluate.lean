import WordMachine.Machine.Step

/-!
# Evaluation

A source is evaluated pair by pair, each pair going where the table routes it.
`ZIPMAP` evaluates sources within sources; the nesting that is left bounds the
recursion, so evaluation always ends.

## Main definitions

* `Evaluation.pair`, `Evaluation.source` — one pair, one source
* `Evaluation.nested` — evaluation with a given nesting left
* `evaluate`, `run` — evaluation of a machine, from its stack or afresh
-/

namespace WordMachine

namespace Evaluation

/-- Evaluates one pair. -/
def pair (table : Table) (env : Environment) (nested : Option (Nat → Action Unit))
    (opcode operand : UInt8) : Action Unit :=
  match table.route opcode operand with
  | .override handler => handler operand env
  | .context handler => handler operand env
  | .storage handler => handler operand env
  | .locals handler => handler operand env
  | .standard instruction => Action.execute env nested instruction operand
  | .unknown => Action.fail (.unknownOpcode opcode operand)

/-- Evaluates pairs in order, up to the first fault. -/
def sequence (table : Table) (env : Environment) (nested : Option (Nat → Action Unit)) :
    List (UInt8 × UInt8) → Action Unit
  | [] => return ()
  | (opcode, operand) :: rest => do
    pair table env nested opcode operand
    sequence table env nested rest

/-- Code in a row is evaluated part by part. -/
theorem sequence_append (table : Table) (env : Environment)
    (nested : Option (Nat → Action Unit)) (first second : List (UInt8 × UInt8)) :
    sequence table env nested (first ++ second)
      = (do
          sequence table env nested first
          sequence table env nested second) := by
  induction first with
  | nil => rfl
  | cons head rest ih =>
    obtain ⟨opcode, operand⟩ := head
    simp only [List.cons_append, sequence, ih, bind_assoc]

/-- Evaluates the source with the given index. -/
def source (table : Table) (env : Environment) (nested : Option (Nat → Action Unit))
    (index : Nat) : Action Unit := do
  let sources ← Action.look Machine.sources
  match sources[index]? with
  | none => Action.fail (.invalidSource index sources.length)
  | some code =>
    if isWhole code then
      sequence table env nested (pairs code)
    else
      Action.fail (.truncatedSource index (code.length - 1))

/-- Evaluates a source while at most `budget` further levels of nesting are
left. -/
def nested (table : Table) (env : Environment) : (budget : Nat) → Nat → Action Unit
  | 0 => source table env none
  | budget + 1 => source table env (some (nested table env budget))

end Evaluation

/-- Evaluates a source on the machine as it is.  The frames that are open
count toward the nesting. -/
def evaluate (table : Table) (env : Environment) (index : Nat) : Action Unit := fun m =>
  Evaluation.nested table env (maxDepth - m.depth) index m

/-- Evaluates a source from empty stacks, and takes the final stack away from
the machine, bottom first. -/
def run (table : Table) (env : Environment) (entry : Nat) : Action (List Word) := do
  Action.change Machine.reset
  evaluate table env entry
  let stack ← Action.look Machine.stack
  Action.change fun m => { m with stack := [] }
  return stack

end WordMachine
