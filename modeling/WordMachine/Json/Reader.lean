import WordMachine.Address
import WordMachine.Json.Token
import WordMachine.Word.Text

/-!
# Reading JSON

A reader takes a value of a known type from the front of the tokens.  It fails
at the first token that does not fit, or with a message of its own when the
form is right and the content is not.  Records are read from an object with
keys in any order, or from a list with the fields in order.

## Main definitions

* `Json.Reader`, `Json.ReadError` — readers and how they fail
* `Json.word`, `Json.size`, `Json.byte`, `Json.address` — single values
* `Json.listOf`, `Json.record`, `Json.skip` — lists, records and values that
  do not matter
* `Json.read` — a value that takes up a whole text
-/

namespace WordMachine.Json

/-- Why a text does not denote a value of the wanted type. -/
inductive ReadError where
  /-- The text is no JSON, or no JSON of the right form. -/
  | malformed
  /-- The form is right, and the content is refused with a message. -/
  | refused (message : String)
  deriving DecidableEq, Repr

/-- Takes a value from the front of the tokens. -/
abbrev Reader (α : Type) := List Token → Except ReadError (α × List Token)

/-- The characters of a string. -/
def text : Reader (List Char)
  | .text pieces :: rest =>
    match decodePieces pieces with
    | some chars => .ok (chars, rest)
    | none => .error .malformed
  | _ => .error .malformed

/-- A plain integer below `bound`. -/
def naturalBelow (bound : Nat) : Reader Nat
  | .number literal :: rest =>
    match natural? literal with
    | some n => if n < bound then .ok (n, rest) else .error .malformed
    | none => .error .malformed
  | _ => .error .malformed

/-- A 64-bit integer. -/
def size : Reader UInt64 := fun input => do
  let (n, rest) ← naturalBelow UInt64.size input
  return (.ofNat n, rest)

/-- A byte. -/
def byte : Reader UInt8 := fun input => do
  let (n, rest) ← naturalBelow 256 input
  return (.ofNat n, rest)

/-- A word: the literal in a string, or a 64-bit integer. -/
def word : Reader Word
  | .text pieces :: rest => do
    let (chars, rest) ← text (.text pieces :: rest)
    match Word.parseChars chars with
    | .ok value => .ok (value, rest)
    | .error e => .error (.refused e.message)
  | input => do
    let (value, rest) ← size input
    return (Word.ofUInt64 value, rest)

/-- An address in a string. -/
def address : Reader Address := fun input => do
  let (chars, rest) ← text input
  match Address.parse (String.ofList chars) with
  | .ok value => .ok (value, rest)
  | .error e => .error (.refused e.message)

/-- A value, or `null` for none. -/
def optional {α : Type} (value : Reader α) : Reader (Option α)
  | .null :: rest => .ok (none, rest)
  | input => do
    let (v, rest) ← value input
    return (some v, rest)

/-! ## Lists -/

/-- The items after the first one, up to the closing bracket, for a budget of
at least the number of tokens. -/
def itemsWithin {α : Type} (item : Reader α) : Nat → Reader (List α)
  | 0, _ => .error .malformed
  | budget + 1, input =>
    match input with
    | .closeList :: rest => .ok ([], rest)
    | .comma :: rest => do
      let (value, rest) ← item rest
      let (values, rest) ← itemsWithin item budget rest
      return (value :: values, rest)
    | _ => .error .malformed

/-- A list of values of one type. -/
def listOf {α : Type} (item : Reader α) : Reader (List α)
  | .openList :: .closeList :: rest => .ok ([], rest)
  | .openList :: rest => do
    let (value, rest) ← item rest
    let (values, rest) ← itemsWithin item rest.length rest
    return (value :: values, rest)
  | _ => .error .malformed

/-! ## Values that do not matter -/

/-- Whether a bracket that is still open is that of a record. -/
abbrev Enclosing := List Bool

/-- Skips a key and its colon, when the innermost open bracket is that of a
record. -/
def skipKey : Enclosing → List Token → Option (List Token)
  | true :: _, .text _ :: .colon :: rest => some rest
  | true :: _, _ => none
  | _, input => some input

mutual

/-- Skips a value and everything up to the end of the outermost one, for a
budget of at least the number of tokens. -/
def skipValue (enclosing : Enclosing) : Nat → List Token → Option (List Token)
  | 0, _ => none
  | budget + 1, input =>
    match input with
    | .openRecord :: .closeRecord :: rest => skipAfter enclosing budget rest
    | .openList :: .closeList :: rest => skipAfter enclosing budget rest
    | .openRecord :: rest => do
      let rest ← skipKey (true :: enclosing) rest
      skipValue (true :: enclosing) budget rest
    | .openList :: rest => skipValue (false :: enclosing) budget rest
    | .text _ :: rest => skipAfter enclosing budget rest
    | .number _ :: rest => skipAfter enclosing budget rest
    | .bool _ :: rest => skipAfter enclosing budget rest
    | .null :: rest => skipAfter enclosing budget rest
    | _ => none

/-- Goes on after a value within the brackets that are still open. -/
def skipAfter (enclosing : Enclosing) : Nat → List Token → Option (List Token)
  | 0, input => if enclosing.isEmpty then some input else none
  | budget + 1, input =>
    match enclosing, input with
    | [], _ => some input
    | true :: outer, .closeRecord :: rest => skipAfter outer budget rest
    | false :: outer, .closeList :: rest => skipAfter outer budget rest
    | inner :: outer, .comma :: rest => do
      let rest ← skipKey (inner :: outer) rest
      skipValue (inner :: outer) budget rest
    | _, _ => none

end

/-- Any value; it is not kept. -/
def skip : Reader Unit := fun input =>
  match skipValue [] (input.length + 1) input with
  | some rest => .ok ((), rest)
  | none => .error .malformed

/-! ## Records -/

/-- A field of a record under construction: its key, whether it was read
already, and how to read it. -/
structure Field (ρ : Type) where
  key : String
  present : ρ → Bool
  read : ρ → Reader ρ

/-- A field that a record under construction holds as an option. -/
def Field.of {ρ α : Type} (key : String) (get : ρ → Option α) (set : ρ → α → ρ)
    (value : Reader α) : Field ρ where
  key := key
  present draft := (get draft).isSome
  read draft input := do
    let (v, rest) ← value input
    return (set draft v, rest)

/-- Reads the value of a key.  Unknown keys are skipped, and no key may occur
twice. -/
def readKey {ρ : Type} (fields : List (Field ρ)) (key : String) (draft : ρ) : Reader ρ :=
  fun input =>
    match fields.find? (·.key == key) with
    | none => do
      let (_, rest) ← skip input
      return (draft, rest)
    | some field => if field.present draft then .error .malformed else field.read draft input

/-- A key, its colon and its value. -/
def readEntry {ρ : Type} (fields : List (Field ρ)) (draft : ρ) : Reader ρ := fun input => do
  let (key, rest) ← text input
  match rest with
  | .colon :: rest => readKey fields (String.ofList key) draft rest
  | _ => .error .malformed

/-- The entries after the first one, up to the closing brace, for a budget of
at least the number of tokens. -/
def entriesWithin {ρ : Type} (fields : List (Field ρ)) : Nat → ρ → Reader ρ
  | 0, _, _ => .error .malformed
  | budget + 1, draft, input =>
    match input with
    | .closeRecord :: rest => .ok (draft, rest)
    | .comma :: rest => do
      let (draft, rest) ← readEntry fields draft rest
      entriesWithin fields budget draft rest
    | _ => .error .malformed

/-- The fields after the first one, in order, up to the closing bracket. -/
def positionsFrom {ρ : Type} : List (Field ρ) → ρ → Reader ρ
  | _, draft, .closeList :: rest => .ok (draft, rest)
  | field :: fields, draft, .comma :: rest => do
    let (draft, rest) ← field.read draft rest
    positionsFrom fields draft rest
  | _, _, _ => .error .malformed

/-- A record: an object, or a list with the fields in order. -/
def record {ρ α : Type} (fields : List (Field ρ)) (empty : ρ) (finish : ρ → Option α) :
    Reader α := fun input => do
  let (draft, rest) ← match fields, input with
    | _, .openRecord :: .closeRecord :: rest => .ok (empty, rest)
    | fields, .openRecord :: rest => do
      let (draft, rest) ← readEntry fields empty rest
      entriesWithin fields rest.length draft rest
    | _, .openList :: .closeList :: rest => .ok (empty, rest)
    | field :: fields, .openList :: rest => do
      let (draft, rest) ← field.read empty rest
      positionsFrom fields draft rest
    | _, _ => .error .malformed
  match finish draft with
  | some value => .ok (value, rest)
  | none => .error .malformed

/-! ## Whole texts -/

/-- Reads a value that takes up a whole text. -/
def read {α : Type} (value : Reader α) (source : List Char) : Except ReadError α :=
  match value (tokens source) with
  | .ok (v, []) => .ok v
  | .ok (_, _ :: _) => .error .malformed
  | .error e => .error e

end WordMachine.Json
