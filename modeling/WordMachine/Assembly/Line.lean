import WordMachine.Assembly.Error
import WordMachine.Assembly.Token

/-!
# Lines of assembler text

A line is blank, opens a source, sets a hint, or is a statement that becomes
one pair.  Reading a line depends on nothing but the line and its number.

## Main definitions

* `Assembly.Line` — what a line says
* `Assembly.readMarker?` — the lines that open a source
* `Assembly.encodeOperand` — the operand byte of a standard instruction
* `Assembly.readLine` — reading a line
-/

namespace WordMachine.Assembly

/-- What a line says. -/
inductive Line where
  | blank
  /-- Opens the source with the given index. -/
  | marker (index : UInt64)
  | stackLength (hint : UInt64)
  | argumentsLength (hint : UInt64)
  /-- Pushes a literal, written at the given column. -/
  | value (literal : Word) (column : Nat)
  /-- Pushes argument `index`. -/
  | argument (index operand : UInt8)
  | pair (opcode operand : UInt8)
  deriving DecidableEq, Repr

/-! ## Section markers -/

/-- Two texts that differ at most in the case of ASCII letters. -/
def sameLetters (a b : List Char) : Bool := a.map Char.toLower == b.map Char.toLower

/-- What stands between brackets that enclose a text. -/
def bracketed? : List Char → Option (List Char)
  | '[' :: rest =>
    match rest.reverse with
    | ']' :: inner => some inner.reverse
    | _ => none
  | _ => none

/-- The index of a marker from what stands between its brackets. -/
def markerIndex? (inner : List Char) : Option UInt64 :=
  match Text.words inner with
  | [keyword, index] =>
    if sameLetters keyword ['s', 'o', 'u', 'r', 'c', 'e'] then Text.size? index else none
  | _ => none

/-- The column of the first bracket of a line. -/
def markerColumn (line : List Char) : Nat :=
  Text.byteSize (line.takeWhile (· != '[')) + 1

/-- The marker on a line; nothing if the line is not in brackets. -/
def readMarker? (number : Nat) (line : List Char) : Option (Except Error Line) :=
  let code := Text.trim (codeOf line)
  (bracketed? code).map fun inner =>
    match markerIndex? inner with
    | some index => .ok (.marker index)
    | none =>
      .error ⟨number, markerColumn line, .malformedMarker (String.ofList code)⟩

/-! ## Operands of a statement -/

/-- A line of tokens: its number, its first token and the others. -/
structure Statement where
  number : Nat
  head : Token
  operands : List Token
  deriving Repr

namespace Statement

/-- An error at a token. -/
def errorAt {α : Type} (s : Statement) (token : Token) (cause : Cause) : Except Error α :=
  .error ⟨s.number, token.column, cause⟩

/-- The error of a number of operands other than `expected`.  It points to the
first operand too many, or to the first token. -/
def wrongArity {α : Type} (s : Statement) (expected : Nat) : Except Error α :=
  s.errorAt (s.operands[expected]?.getD s.head)
    (.arity s.head.text expected s.operands.length)

/-- The word that a token denotes. -/
def word (s : Statement) (token : Token) : Except Error Word :=
  match Word.parseChars token.chars with
  | .ok value => .ok value
  | .error e => s.errorAt token (.invalidNumber token.text e)

/-- The byte that a token denotes. -/
def byte (s : Statement) (token : Token) : Except Error UInt8 := do
  let value ← s.word token
  match value.toUInt8? with
  | some b => .ok b
  | none => s.errorAt token (.notAByte value)

/-- The 64-bit number that a token denotes. -/
def size (s : Statement) (token : Token) : Except Error UInt64 := do
  let value ← s.word token
  match value.toUInt64? with
  | some n => .ok n
  | none => s.errorAt token (.notASize value)

/-- The digits of a token and whether a minus sign stands before them. -/
def signOf : List Char → Bool × List Char
  | '-' :: digits => (true, digits)
  | digits => (false, digits)

/-- The signed byte that a text denotes, if it is one. -/
def signedByte? (text : List Char) : Option UInt8 := do
  let (negative, digits) := signOf text
  let value ← (Word.parseChars digits).toOption
  let magnitude ← value.toUInt64?
  if negative then
    if magnitude ≤ 128 then some (0 - magnitude.toUInt8) else none
  else
    if magnitude ≤ 127 then some magnitude.toUInt8 else none

/-- The signed byte that a token denotes, in two's complement. -/
def signedByte (s : Statement) (token : Token) : Except Error UInt8 :=
  match signedByte? token.chars with
  | some b => .ok b
  | none => s.errorAt token (.notASignedByte token.text)

/-- The refusal of an operand, placed at a token. -/
def locate {α : Type} (s : Statement) (token : Token) : Except OperandError α → Except Error α
  | .ok value => .ok value
  | .error e => s.errorAt token (.operand e)

/-- The lower-case letters of a token. -/
def lowered (token : Token) : String := String.ofList (token.chars.map Char.toLower)

/-- The logic that a token names. -/
def logic (s : Statement) (token : Token) : Except Error SelectLogic :=
  let name := lowered token
  if name = "every" then .ok .every
  else if name = "any" then .ok .any
  else s.errorAt token (.unknownLogic name)

/-- The mode that a token names. -/
def mode (s : Statement) (token : Token) : Except Error SelectMode :=
  let name := lowered token
  if name = "min" then .ok .min
  else if name = "max" then .ok .max
  else if name = "first" then .ok .first
  else s.errorAt token (.unknownMode name)

/-- The lane width that a token denotes. -/
def laneBits (s : Statement) (token : Token) : Except Error UInt16 := do
  let n ← s.size token
  if n < 65536 then return n.toUInt16
  s.errorAt token .laneWidth

/-- The operand byte of a `ZIPMAP`. -/
def zipOperand (s : Statement) (source lanes count : Token) : Except Error UInt8 := do
  let index ← s.byte source
  let bits ← s.laneBits lanes
  let values ← s.byte count
  let zip ← s.locate source (Zip.ofLaneBits index bits values)
  s.locate source zip.encode

/-- The operand byte of a `SELECT_LTE`. -/
def selectOperand (s : Statement) (logic mode count : Token) : Except Error UInt8 := do
  let l ← s.logic logic
  let m ← s.mode mode
  let n ← s.byte count
  s.locate count (Selection.encode ⟨l, m, n⟩)

/-- The operand byte of an `UPDATE_TIMES_FOR_TIER_RANGE`. -/
def rangeOperand (s : Statement) (start stop : Token) : Except Error UInt8 := do
  let first ← s.byte start
  let last ← s.byte stop
  let range ← s.locate start (TierRange.ofBounds first last)
  return range.encode

end Statement

/-- The operand byte of a standard instruction. -/
def encodeOperand (instruction : Instruction) (s : Statement) : Except Error UInt8 :=
  match instruction.form, s.operands with
  | .none, [] => .ok 0
  | .none, _ => s.wrongArity 0
  | .window, [t] => do
    let n ← s.byte t
    let _ ← s.locate t (windowSize instruction n)
    return n
  | .debug, [t] => do
    let n ← s.byte t
    let part ← s.locate t (Inspection.decode n)
    return part.encode
  | .signedExponent, [t] => s.signedByte t
  | .zipmap, [source, lanes, count] => s.zipOperand source lanes count
  | .zipmap, _ => s.wrongArity 3
  | .selectLte, [logic, mode, count] => s.selectOperand logic mode count
  | .selectLte, _ => s.wrongArity 3
  | .tierRange, [start, stop] => s.rangeOperand start stop
  | .tierRange, _ => s.wrongArity 2
  | _, [t] => s.byte t
  | _, _ => s.wrongArity 1

/-! ## Reading a line -/

/-- A line that starts with a point. -/
def readDirective (s : Statement) : Except Error Line :=
  match s.operands with
  | [t] => do
    let hint ← s.size t
    if s.head.text = ".stack_length" then return .stackLength hint
    if s.head.text = ".arguments_length" then return .argumentsLength hint
    s.errorAt s.head (.unknownDirective s.head.text)
  | _ => s.wrongArity 1

/-- A line that pushes a literal. -/
def readValue (s : Statement) : Except Error Line :=
  match s.operands with
  | [t] => do
    let literal ← s.word t
    return .value literal t.column
  | _ => s.wrongArity 1

/-- A line that pushes an argument. -/
def readArgument (s : Statement) : Except Error Line :=
  match s.operands with
  | [t] => do
    let index ← s.byte t
    let operand ← s.locate t (Fetch.argument index).encode
    return .argument index operand
  | _ => s.wrongArity 1

/-- A line that gives a pair as it is. -/
def readPair (s : Statement) : Except Error Line :=
  match s.operands with
  | [a, b] => do
    let opcode ← s.byte a
    let operand ← s.byte b
    return .pair opcode operand
  | _ => s.wrongArity 2

/-- A line that starts with a name. -/
def readStatement (s : Statement) : Except Error Line :=
  let name := String.ofList (s.head.chars.map Char.toUpper)
  if name = "VAL" then readValue s
  else if name = "ARG" then readArgument s
  else if name = "OP" then readPair s
  else
    match Instruction.ofMnemonic? name with
    | none => s.errorAt s.head (.unknownInstruction s.head.text)
    | some instruction => do
      let operand ← encodeOperand instruction s
      return .pair instruction.opcode operand

/-- Reads the tokens of a line. -/
def readTokens (number : Nat) : List Token → Except Error Line
  | [] => .ok .blank
  | head :: operands =>
    let s : Statement := ⟨number, head, operands⟩
    if head.chars.head? = some '.' then readDirective s else readStatement s

/-- Reads line `number`. -/
def readLine (number : Nat) (line : List Char) : Except Error Line :=
  match readMarker? number line with
  | some marker => marker
  | none => readTokens number (tokens line)

end WordMachine.Assembly
