import WordMachine.Json.Value
import WordMachine.Program.Binary

/-!
# Programs as JSON

A program is a record of its sources as hexadecimal strings, its constants as
hexadecimal literals, and the two hints, which may be missing.  A source may
also be a list of bytes, and a constant a 64-bit integer.

## Main definitions

* `Program.toJson`, `Program.toJsonText` — writing
* `Program.ofJson`, `Program.ofAny` — reading JSON, or either format
-/

namespace WordMachine.Program

/-! ## Writing -/

/-- A source as a hexadecimal string. -/
def sourceText (source : Source) : String := String.ofList ('0' :: 'x' :: Text.hexText source)

/-- The JSON value of a program. -/
def toJson (p : Program) : Json.Value :=
  .record
    [ ("sources", .list (p.sources.map fun source => .text (sourceText source))),
      ("constants", .list (p.constants.map fun word => .text word.prefixedHex)),
      ("stackLength", .nat p.stackLength.toNat),
      ("argumentsLength", .nat p.argumentsLength.toNat) ]

/-- The JSON text of a program over several lines. -/
def toJsonText (p : Program) : String := p.toJson.pretty

/-! ## Reading -/

/-- A source as it is written: a string of digits or a list of bytes. -/
inductive WrittenSource where
  | digits (text : List Char)
  | bytes (source : Source)

/-- A source in either form; the digits are not looked at yet. -/
def writtenSource : Json.Reader WrittenSource
  | .text pieces :: rest => do
    let (chars, rest) ← Json.text (.text pieces :: rest)
    return (.digits chars, rest)
  | input => do
    let (source, rest) ← Json.listOf Json.byte input
    return (.bytes source, rest)

/-- The bytes of a string of hexadecimal digits, after at most one `0x`. -/
def sourceOfText (text : List Char) : Except Json.ReadError Source :=
  let digits := (Text.after? ['0', 'x'] text).getD text
  if digits.length % 2 ≠ 0 ∨ !Text.isAscii digits then
    .error (.refused ("source '" ++ String.ofList text ++ "' is not an even-length hex string"))
  else
    match Text.hexBytes? digits with
    | some source => .ok source
    | none =>
      .error (.refused ("source '" ++ String.ofList text ++ "' contains a non-hex digit"))

/-- The bytes of a source in either form. -/
def WrittenSource.toSource : WrittenSource → Except Json.ReadError Source
  | .digits text => sourceOfText text
  | .bytes source => .ok source

/-- The list of sources.  The form of the whole list is checked before any
digits are. -/
def sourceList : Json.Reader (List Source) := fun input => do
  let (written, rest) ← Json.listOf writtenSource input
  let sources ← written.mapM WrittenSource.toSource
  return (sources, rest)

/-- The fields of a program that were read so far. -/
structure Draft where
  sources : Option (List Source) := none
  constants : Option (List Word) := none
  stackLength : Option UInt64 := none
  argumentsLength : Option UInt64 := none

/-- The fields of a program in order. -/
def fields : List (Json.Field Draft) :=
  [ .of "sources" Draft.sources (fun d v => { d with sources := some v }) sourceList,
    .of "constants" Draft.constants (fun d v => { d with constants := some v })
      (Json.listOf Json.word),
    .of "stackLength" Draft.stackLength (fun d v => { d with stackLength := some v }) Json.size,
    .of "argumentsLength" Draft.argumentsLength
      (fun d v => { d with argumentsLength := some v }) Json.size ]

/-- The program of the fields; missing hints are zero. -/
def Draft.finish (d : Draft) : Option Program := do
  let sources ← d.sources
  let constants ← d.constants
  return ⟨sources, constants, d.stackLength.getD 0, d.argumentsLength.getD 0⟩

/-- Reads a program. -/
def reader : Json.Reader Program := Json.record fields {} Draft.finish

/-- The program in a JSON text. -/
def ofJson (text : String) : Except DecodeError Program :=
  (Json.read reader text.toList).mapError .json

/-- The program in a file of either format. -/
def ofAny (input : List UInt8) : Except DecodeError Program :=
  if input.take magic.length = magic then ofBytes input
  else
    match String.fromUTF8? ⟨input.toArray⟩ with
    | some text => ofJson text
    | none => .error .unrecognised

end WordMachine.Program
