import WordMachine.Text.Numeral
import WordMachine.Word.Arithmetic

/-!
# Words as text

A word is printed in decimal, cut into chunks of nineteen digits, or in
hexadecimal, limb by limb.  It is read digit by digit in any radix from 2 to
36; a literal is hexadecimal after `0x` or `0X` and decimal otherwise, with
blanks around it ignored.

## Main definitions

* `Word.decimal`, `Word.hex`, `Word.prefixedHex` — printing
* `Word.parseRadix`, `Word.parse` — reading
* `NumeralError` — why a text is no word
-/

namespace WordMachine

/-- Why a text does not denote a word. -/
inductive NumeralError where
  /-- There is no digit at all. -/
  | empty
  /-- The character `digit` of `input` is no digit of the radix. -/
  | invalidDigit (input : String) (digit : Char)
  /-- The digits of `input` denote a number of more than 256 bits. -/
  | overflow (input : String)
  deriving DecidableEq, Repr

/-- The wording of a numeral error. -/
def NumeralError.message : NumeralError → String
  | .empty => "empty number literal"
  | .invalidDigit input digit =>
    "invalid digit '" ++ String.singleton digit ++ "' in number literal '" ++ input ++ "'"
  | .overflow input => "number literal '" ++ input ++ "' does not fit in 256 bits"

namespace Word

/-! ## Printing -/

/-- The largest power of ten below `2 ^ 64`. -/
def decimalChunk : UInt64 := 10000000000000000000

/-- The base `10 ^ 19` digits of a word, least significant first, as long as
the budget lasts.  Five such digits hold every word. -/
def decimalChunks : Nat → Word → List UInt64
  | 0, _ => []
  | budget + 1, w =>
    if w.isZero then []
    else
      let (quotient, digit) := w.divModSmall decimalChunk
      digit :: decimalChunks budget quotient

/-- A chunk below the leading one keeps its leading zeros. -/
def chunkText (chunk : UInt64) : List Char :=
  (Nat.toDigits 10 chunk.toNat).leftpad 19 '0'

/-- The characters of the decimal numeral. -/
def decimalDigits (w : Word) : List Char :=
  match (decimalChunks 5 w).reverse with
  | [] => ['0']
  | first :: rest => Nat.toDigits 10 first.toNat ++ rest.flatMap chunkText

/-- The decimal numeral of a word, without leading zeros. -/
def decimal (w : Word) : String := String.ofList w.decimalDigits

/-- A limb below the leading one keeps its leading zeros. -/
def limbText (limb : UInt64) : List Char :=
  (Nat.toDigits 16 limb.toNat).leftpad 16 '0'

/-- The characters of the hexadecimal numeral. -/
def hexDigits (w : Word) : List Char :=
  if w.limb3 ≠ 0 then
    Nat.toDigits 16 w.limb3.toNat ++ limbText w.limb2 ++ limbText w.limb1 ++ limbText w.limb0
  else if w.limb2 ≠ 0 then
    Nat.toDigits 16 w.limb2.toNat ++ limbText w.limb1 ++ limbText w.limb0
  else if w.limb1 ≠ 0 then
    Nat.toDigits 16 w.limb1.toNat ++ limbText w.limb0
  else
    Nat.toDigits 16 w.limb0.toNat

/-- The lower-case hexadecimal numeral of a word, without leading zeros. -/
def hex (w : Word) : String := String.ofList w.hexDigits

/-- The hexadecimal numeral after `0x`. -/
def prefixedHex (w : Word) : String := String.ofList ('0' :: 'x' :: w.hexDigits)

/-! ## Reading -/

/-- Reads the remaining digits of the numeral `input` onto `acc`.  The first
character that is no digit, or at which the value leaves 256 bits, decides. -/
def parseDigits (radix : Nat) (input : String) (acc : Word) :
    List Char → Except NumeralError Word
  | [] => .ok acc
  | c :: rest =>
    match Text.digitValue? radix c with
    | none => .error (.invalidDigit input c)
    | some digit =>
      match (acc.mul? (ofSmall radix)).bind (·.add? (ofSmall digit)) with
      | none => .error (.overflow input)
      | some next => parseDigits radix input next rest

/-- Reads a non-empty numeral in the given radix. -/
def parseRadix (radix : Nat) (text : List Char) : Except NumeralError Word :=
  if text.isEmpty then .error .empty
  else parseDigits radix (String.ofList text) zero text

/-- The digits of a literal after its radix mark, if it has one. -/
def hexLiteral? : List Char → Option (List Char)
  | '0' :: 'x' :: digits => some digits
  | '0' :: 'X' :: digits => some digits
  | _ => none

/-- Reads a literal: hexadecimal after `0x` or `0X`, decimal otherwise, with
the blanks around it ignored. -/
def parseChars (text : List Char) : Except NumeralError Word :=
  let trimmed := Text.trim text
  match hexLiteral? trimmed with
  | some digits => parseRadix 16 digits
  | none => parseRadix 10 trimmed

/-- Reads a literal. -/
def parse (text : String) : Except NumeralError Word := parseChars text.toList

end Word

end WordMachine
