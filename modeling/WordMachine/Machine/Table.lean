import WordMachine.Chain.Environment
import WordMachine.Machine.Action

/-!
# Handlers and routes

A host may replace any opcode, answer `CONTEXT` and `STORAGE` by operand, and
add opcodes past the standard ones.  A table holds its handlers; a pair is
routed to the first of: the replacement of its opcode, the standard
instruction, or the added opcode.

## Main definitions

* `Handler`, `Table`, `Table.register` — handlers and where they are kept
* `Route`, `Table.route` — where a pair goes
* `Handler.readContext`, `Handler.fixed` — handlers for common needs
-/

namespace WordMachine

/-- What a host does for a pair: it sees the operand and the environment. -/
abbrev Handler := UInt8 → Environment → Action Unit

/-- The handlers of a host. -/
structure Table where
  /-- Replacements, by opcode. -/
  overrides : UInt8 → Option Handler := fun _ => none
  /-- Handlers of `CONTEXT`, by operand. -/
  context : UInt8 → Option Handler := fun _ => none
  /-- Handlers of `STORAGE`, by operand. -/
  storage : UInt8 → Option Handler := fun _ => none
  /-- Added opcodes. -/
  locals : UInt8 → Option Handler := fun _ => none

/-- The four parts of a table. -/
inductive TablePart where
  | override
  | context
  | storage
  | locals
  deriving DecidableEq, Repr

namespace Table

/-- The table without handlers. -/
def standard : Table := {}

/-- The map with `handler` under `key`, in place of an earlier one. -/
def put (map : UInt8 → Option Handler) (key : UInt8) (handler : Handler) :
    UInt8 → Option Handler :=
  fun k => if k = key then some handler else map k

/-- The table with one more handler. -/
def register (t : Table) (part : TablePart) (key : UInt8) (handler : Handler) : Table :=
  match part with
  | .override => { t with overrides := put t.overrides key handler }
  | .context => { t with context := put t.context key handler }
  | .storage => { t with storage := put t.storage key handler }
  | .locals => { t with locals := put t.locals key handler }

end Table

/-- Where a pair goes. -/
inductive Route where
  | override (handler : Handler)
  | standard (instruction : Instruction)
  | context (handler : Handler)
  | storage (handler : Handler)
  | locals (handler : Handler)
  | unknown

/-- The name of a route. -/
def Route.name : Route → String
  | .override _ => "Override"
  | .standard instruction => "Standard(" ++ instruction.mnemonic ++ ")"
  | .context _ => "Context"
  | .storage _ => "Storage"
  | .locals _ => "Local"
  | .unknown => "Unknown"

/-- The route of a pair. -/
def Table.route (t : Table) (opcode operand : UInt8) : Route :=
  match t.overrides opcode with
  | some handler => .override handler
  | none =>
    match Instruction.ofOpcode? opcode with
    | some .context => (t.context operand).elim .unknown .context
    | some .storage => (t.storage operand).elim .unknown .storage
    | some instruction => .standard instruction
    | none => (t.locals opcode).elim .unknown .locals

namespace Handler

open WordMachine.Action

/-- Pushes the word of the caller's context under the operand. -/
def readContext : Handler := fun operand env => do
  let value ← ofExcept (Machine.fetch env.context operand.toUInt64)
  push value

/-- Pushes a fixed word. -/
def fixed (value : Word) : Handler := fun _ _ => push value

end Handler

end WordMachine
