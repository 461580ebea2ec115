import WordMachine.Codec
import WordMachine.Digest.Sha3
import WordMachine.Json.Reader
import WordMachine.Program.Basic

/-!
# Programs as bytes

The body of a program is the encoding of its four parts one after the other.
A file starts with five magic bytes and a version of three bytes.

## Main definitions

* `Program.encode`, `Program.decode` — the body
* `Program.toBytes`, `Program.ofBytes` — the file
* `Program.fingerprint` — the digest of the body
* `DecodeError` — why bytes or a text are no program
-/

namespace WordMachine

/-- Why bytes or a text are not a program. -/
inductive DecodeError where
  /-- The file ends within its magic bytes. -/
  | truncated
  /-- The file does not start with the magic bytes. -/
  | badMagic
  /-- The file has another version. -/
  | unsupportedVersion
  /-- Bytes are left after the body. -/
  | trailingBytes
  /-- The body is no encoding. -/
  | codec (error : CodecError)
  /-- The file has no magic bytes and is no text. -/
  | unrecognised
  /-- The text is no JSON of a program. -/
  | json (error : Json.ReadError)
  deriving DecidableEq, Repr

/-- The cause of a decoding error in words.  A malformed JSON text is not
described further. -/
def DecodeError.reason : DecodeError → String
  | .truncated => "truncated"
  | .badMagic => "bad magic"
  | .unsupportedVersion => "unsupported version"
  | .trailingBytes => "trailing bytes"
  | .codec error => error.message
  | .unrecognised => "neither a binary program nor UTF-8 JSON"
  | .json .malformed => "invalid program JSON"
  | .json (.refused message) => "invalid program JSON: " ++ message

/-- The wording of a decoding error. -/
def DecodeError.message (e : DecodeError) : String := "decoding error: " ++ e.reason

namespace Program

/-- The shape of the list of sources. -/
abbrev sourcesShape : Shape := .list (.list .uint8)

/-- The shape of the pool of constants. -/
abbrev constantsShape : Shape := .list .word

/-- The body: sources, constants, and the two hints. -/
def encode (p : Program) : List UInt8 :=
  sourcesShape.encode p.sources ++ constantsShape.encode p.constants
    ++ Shape.uint64.encode p.stackLength ++ Shape.uint64.encode p.argumentsLength

/-- The number of bytes of the body. -/
def size (p : Program) : Nat :=
  sourcesShape.size p.sources + constantsShape.size p.constants
    + Shape.uint64.size p.stackLength + Shape.uint64.size p.argumentsLength

/-- A body from the front of the bytes, and the rest. -/
def decode (input : List UInt8) : Except CodecError (Program × List UInt8) := do
  let (sources, rest) ← sourcesShape.decode input
  let (constants, rest) ← constantsShape.decode rest
  let (stackLength, rest) ← Shape.uint64.decode rest
  let (argumentsLength, rest) ← Shape.uint64.decode rest
  return (⟨sources, constants, stackLength, argumentsLength⟩, rest)

/-- The bytes that a program file starts with. -/
def magic : List UInt8 := [0x52, 0x41, 0x49, 0x4E, 0x50]

/-- The version of the format: major, minor, patch. -/
def version : List UInt8 := [0, 1, 0]

/-- The file of a program. -/
def toBytes (p : Program) : List UInt8 := magic ++ version ++ p.encode

/-- The version and the body after the magic bytes. -/
def ofVersioned (input : List UInt8) : Except DecodeError Program := do
  let (found, rest) ← (Shape.takeBytes 3 input).mapError .codec
  if found ≠ version then .error .unsupportedVersion
  let (program, rest) ← (decode rest).mapError .codec
  if rest.isEmpty then return program else .error .trailingBytes

/-- The program in a file. -/
def ofBytes (input : List UInt8) : Except DecodeError Program :=
  if input.length < magic.length then .error .truncated
  else if input.take magic.length ≠ magic then .error .badMagic
  else ofVersioned (input.drop magic.length)

/-- The digest of the body in hexadecimal. -/
def fingerprint (p : Program) : String := Sha3.fingerprint p.encode

end Program

end WordMachine
