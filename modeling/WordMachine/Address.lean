import WordMachine.Text.Numeral
import WordMachine.Word.Bytes

/-!
# Account addresses

An address is twenty bytes.  On the stack it occupies the low 160 bits of a
word; reading it back drops the high 96 bits.

## Main definitions

* `Address`, `Address.toWord`, `Address.ofWord` — addresses and words
* `Address.text`, `Address.parse` — printing and reading
-/

namespace WordMachine

/-- The address of an account or contract: twenty bytes, most significant
first. -/
structure Address where
  bytes : List UInt8
  length_bytes : bytes.length = 20
  deriving DecidableEq

/-- The text is not `0x` followed by forty hexadecimal digits. -/
structure AddressError where
  text : String
  deriving DecidableEq, Repr

/-- The wording of an address error. -/
def AddressError.message (e : AddressError) : String :=
  "address must be 0x followed by 40 hex digits, got '" ++ e.text ++ "'"

namespace Address

/-- The address of twenty zero bytes. -/
def zero : Address := ⟨List.replicate 20 0, by simp⟩

instance : Inhabited Address := ⟨zero⟩

/-- The low 160 bits of a word. -/
def ofWord (w : Word) : Address := ⟨w.toBytes.drop 12, by simp⟩

/-- The word whose low 160 bits are the address. -/
def toWord (a : Address) : Word := Word.ofBytes (List.replicate 12 0 ++ a.bytes)

/-- `0x` and forty lower-case hexadecimal digits. -/
def text (a : Address) : String := String.ofList ('0' :: 'x' :: Text.hexText a.bytes)

/-- The characters after `0x` or `0X`. -/
def body? : List Char → Option (List Char)
  | '0' :: 'x' :: rest => some rest
  | '0' :: 'X' :: rest => some rest
  | _ => none

/-- The address written by the characters of a text. -/
def parse? (text : List Char) : Option Address := do
  let body ← body? text
  let bytes ← Text.hexBytes? body
  if h : bytes.length = 20 then some ⟨bytes, h⟩ else none

/-- Reads an address. -/
def parse (text : String) : Except AddressError Address :=
  match parse? text.toList with
  | some address => .ok address
  | none => .error ⟨text⟩

end Address

end WordMachine
