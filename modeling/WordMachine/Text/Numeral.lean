import WordMachine.Text.Blank

/-!
# Numerals

Digits run through `0` to `9` and then through the letters, in either case.
A byte is written as two hexadecimal digits, of which the first may be a plus
sign; a size is a decimal numeral below `2 ^ 64` that may start with one.

## Main definitions

* `Text.digitValue?` — the value of a digit in a given radix
* `Text.hexBytes?`, `Text.hexText` — reading and writing bytes as hexadecimal
* `Text.size?` — reading a 64-bit decimal numeral
-/

namespace WordMachine.Text

/-- The value of a digit or letter, without regard to a radix. -/
def symbolValue? (c : Char) : Option Nat :=
  if '0' ≤ c ∧ c ≤ '9' then some (c.toNat - '0'.toNat)
  else if 'a' ≤ c ∧ c ≤ 'z' then some (c.toNat - 'a'.toNat + 10)
  else if 'A' ≤ c ∧ c ≤ 'Z' then some (c.toNat - 'A'.toNat + 10)
  else none

/-- The value of `c` as a digit in `radix`, if it is one. -/
def digitValue? (radix : Nat) (c : Char) : Option Nat :=
  (symbolValue? c).filter (· < radix)

/-- The byte written by two characters: two hexadecimal digits, or a plus sign
and one digit. -/
def hexByte? (high low : Char) : Option UInt8 := do
  let l ← digitValue? 16 low
  if high = '+' then
    return .ofNat l
  let h ← digitValue? 16 high
  return .ofNat (16 * h + l)

/-- The bytes written by successive pairs of characters. -/
def hexBytes? : List Char → Option (List UInt8)
  | [] => some []
  | [_] => none
  | high :: low :: rest => do
    let byte ← hexByte? high low
    let bytes ← hexBytes? rest
    return byte :: bytes

/-- A number below 16 as a lower-case hexadecimal digit. -/
def hexDigit (n : Nat) : Char := Nat.digitChar n

/-- Two lower-case hexadecimal digits for each byte. -/
def hexText (bytes : List UInt8) : List Char :=
  bytes.flatMap fun b => [hexDigit (b.toNat / 16), hexDigit (b.toNat % 16)]

/-- The value of a list of decimal digits read after `acc`. -/
def decimalFrom? (acc : Nat) : List Char → Option Nat
  | [] => some acc
  | c :: rest => do
    let d ← digitValue? 10 c
    decimalFrom? (10 * acc + d) rest

/-- A decimal numeral below `2 ^ 64`, after at most one plus sign. -/
def size? (text : List Char) : Option UInt64 := do
  let digits := match text with
    | '+' :: rest => rest
    | _ => text
  if digits.isEmpty then none
  let value ← decimalFrom? 0 digits
  if value < UInt64.size then some (.ofNat value) else none

/-- The decimal numeral of a natural number. -/
def decimal (n : Nat) : String := String.ofList (Nat.toDigits 10 n)

end WordMachine.Text
