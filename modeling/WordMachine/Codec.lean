import WordMachine.Text.Numeral
import WordMachine.Word.Bytes

/-!
# Binary encoding

Values are written without padding or tags: integers with their least
significant byte first, words as 32 bytes with the most significant first, and
lists as a 64-bit length followed by the items.  A `Shape` says which value to
expect; reading takes exactly the bytes of one value and leaves the rest.

## Main definitions

* `Shape`, `Shape.Value` — the encodable types
* `Shape.encode`, `Shape.decode`, `Shape.decodeAll` — writing and reading
* `Shape.size` — the length of an encoding, without building it
* `CodecError` — why bytes are no encoding
-/

namespace WordMachine

/-- Why bytes are not the encoding of a value. -/
inductive CodecError where
  /-- The bytes end within the value. -/
  | unexpectedEnd
  /-- A list announces more items than the reader accepts. -/
  | lengthOverflow (length : UInt64)
  /-- Bytes are left after the value. -/
  | trailingBytes (count : Nat)
  deriving DecidableEq, Repr

/-- The wording of a codec error. -/
def CodecError.message : CodecError → String
  | .unexpectedEnd => "unexpected end of input"
  | .lengthOverflow length =>
    "length prefix " ++ Text.decimal length.toNat ++ " exceeds the decoder limit"
  | .trailingBytes count => Text.decimal count ++ " trailing bytes after value"

/-- The types of encodable values. -/
inductive Shape where
  | uint8
  | uint16
  | uint32
  | uint64
  | word
  | list (item : Shape)
  deriving DecidableEq, Repr

namespace Shape

/-- The values of a shape. -/
abbrev Value : Shape → Type
  | .uint8 => UInt8
  | .uint16 => UInt16
  | .uint32 => UInt32
  | .uint64 => UInt64
  | .word => Word
  | .list item => List item.Value

/-- The largest number of items that a reader accepts in a list, `2 ^ 20`. -/
def maxLength : Nat := 1048576

/-- A number as `width` bytes, least significant first. -/
def littleEndian : (width : Nat) → Nat → List UInt8
  | 0, _ => []
  | width + 1, n => .ofNat n :: littleEndian width (n / 256)

/-- The number written by bytes, least significant first. -/
def ofLittleEndian : List UInt8 → Nat
  | [] => 0
  | byte :: rest => byte.toNat + 256 * ofLittleEndian rest

/-! ## Writing -/

/-- The bytes of a value. -/
def encode : (shape : Shape) → shape.Value → List UInt8
  | .uint8, v => [v]
  | .uint16, v => littleEndian 2 v.toNat
  | .uint32, v => littleEndian 4 v.toNat
  | .uint64, v => littleEndian 8 v.toNat
  | .word, v => v.toBytes
  | .list item, vs => littleEndian 8 vs.length ++ vs.flatMap item.encode

/-- The number of bytes of a value. -/
def size : (shape : Shape) → shape.Value → Nat
  | .uint8, _ => 1
  | .uint16, _ => 2
  | .uint32, _ => 4
  | .uint64, _ => 8
  | .word, _ => 32
  | .list item, vs => 8 + (vs.map item.size).sum

/-! ## Reading -/

/-- The first `n` bytes and the rest. -/
def takeBytes (n : Nat) (input : List UInt8) : Except CodecError (List UInt8 × List UInt8) :=
  let bytes := input.take n
  if bytes.length < n then .error .unexpectedEnd else .ok (bytes, input.drop n)

/-- The number written by the first `width` bytes, and the rest. -/
def decodeNat (width : Nat) (input : List UInt8) : Except CodecError (Nat × List UInt8) := do
  let (bytes, rest) ← takeBytes width input
  return (ofLittleEndian bytes, rest)

/-- A given number of values, one after the other. -/
def decodeMany {α : Type} (item : List UInt8 → Except CodecError (α × List UInt8)) :
    Nat → List UInt8 → Except CodecError (List α × List UInt8)
  | 0, input => .ok ([], input)
  | n + 1, input => do
    let (value, rest) ← item input
    let (values, rest) ← decodeMany item n rest
    return (value :: values, rest)

/-- One value from the front of the bytes, and the rest. -/
def decode : (shape : Shape) → List UInt8 → Except CodecError (shape.Value × List UInt8)
  | .uint8, input => do
    let (n, rest) ← decodeNat 1 input
    return (.ofNat n, rest)
  | .uint16, input => do
    let (n, rest) ← decodeNat 2 input
    return (.ofNat n, rest)
  | .uint32, input => do
    let (n, rest) ← decodeNat 4 input
    return (.ofNat n, rest)
  | .uint64, input => do
    let (n, rest) ← decodeNat 8 input
    return (.ofNat n, rest)
  | .word, input => do
    let (bytes, rest) ← takeBytes 32 input
    return (Word.ofBytes bytes, rest)
  | .list item, input => do
    let (length, rest) ← decodeNat 8 input
    if maxLength < length then
      .error (.lengthOverflow (.ofNat length))
    decodeMany item.decode length rest

/-- Accepts a value only if no bytes are left after it. -/
def exactly {α : Type} : Except CodecError (α × List UInt8) → Except CodecError α
  | .error e => .error e
  | .ok (value, []) => .ok value
  | .ok (_, byte :: rest) => .error (.trailingBytes (byte :: rest).length)

/-- The value that takes up all of the bytes. -/
def decodeAll (shape : Shape) (input : List UInt8) : Except CodecError shape.Value :=
  exactly (shape.decode input)

end Shape

end WordMachine
