import WordMachine.Text.Numeral

/-!
# JSON tokens

A JSON text is first cut into tokens.  Cutting never fails: the first place
that cannot be the start of a token becomes an `invalid` token at the end of
the list, so that a reader meets faults in the order of the text.  A string is
kept as its pieces, because only a reader that wants its characters objects to
half of a surrogate pair.

## Main definitions

* `Json.Token`, `Json.tokens` — tokens and how a text is cut into them
* `Json.Piece`, `Json.decodePieces` — the characters of a string
* `Json.natural?` — the plain integers among the numbers
-/

namespace WordMachine.Json

/-- A piece of a string: a character, or a 16-bit unit written as an escape. -/
inductive Piece where
  | char (c : Char)
  | unit (value : Nat)
  deriving DecidableEq, Repr

/-- A token of a JSON text. -/
inductive Token where
  | openRecord
  | closeRecord
  | openList
  | closeList
  | colon
  | comma
  | text (pieces : List Piece)
  | number (literal : List Char)
  | bool (value : Bool)
  | null
  /-- No token starts here; nothing follows it. -/
  | invalid
  deriving DecidableEq, Repr

/-! ## Strings -/

/-- The character of a one-letter escape. -/
def escaped? : Char → Option Char
  | '"' => some '"'
  | '\\' => some '\\'
  | '/' => some '/'
  | 'b' => some '\x08'
  | 'f' => some '\x0c'
  | 'n' => some '\n'
  | 'r' => some '\r'
  | 't' => some '\t'
  | _ => none

/-- The value of four hexadecimal digits. -/
def hexUnit? (a b c d : Char) : Option Nat := do
  let a ← Text.digitValue? 16 a
  let b ← Text.digitValue? 16 b
  let c ← Text.digitValue? 16 c
  let d ← Text.digitValue? 16 d
  return ((a * 16 + b) * 16 + c) * 16 + d

/-- The pieces of a string up to its closing quote, and the text after it. -/
def scanString : List Char → Option (List Piece × List Char)
  | [] => none
  | '"' :: rest => some ([], rest)
  | '\\' :: 'u' :: a :: b :: c :: d :: rest => do
    let unit ← hexUnit? a b c d
    let (pieces, rest) ← scanString rest
    return (.unit unit :: pieces, rest)
  | '\\' :: e :: rest => do
    let c ← escaped? e
    let (pieces, rest) ← scanString rest
    return (.char c :: pieces, rest)
  | c :: rest => do
    if c.toNat < 0x20 ∨ c = '\\' then none
    let (pieces, rest) ← scanString rest
    return (.char c :: pieces, rest)

/-- Whether a unit is the first half of a surrogate pair. -/
def isHighHalf (n : Nat) : Bool := 0xD800 ≤ n && n ≤ 0xDBFF

/-- Whether a unit is the second half of a surrogate pair. -/
def isLowHalf (n : Nat) : Bool := 0xDC00 ≤ n && n ≤ 0xDFFF

/-- The characters of a string, if its escaped halves pair up. -/
def decodePieces : List Piece → Option (List Char)
  | [] => some []
  | .char c :: rest => (decodePieces rest).map (c :: ·)
  | .unit high :: .unit low :: rest =>
    if isHighHalf high then
      if isLowHalf low then
        (decodePieces rest).map
          (Char.ofNat (0x10000 + (high - 0xD800) * 0x400 + (low - 0xDC00)) :: ·)
      else none
    else if isLowHalf high then none
    else (decodePieces (.unit low :: rest)).map (Char.ofNat high :: ·)
  | .unit n :: rest =>
    if isHighHalf n || isLowHalf n then none
    else (decodePieces rest).map (Char.ofNat n :: ·)

/-! ## Numbers -/

/-- Whether `c` is a decimal digit. -/
def isDigit (c : Char) : Bool := '0' ≤ c && c ≤ '9'

/-- The digits at the front, of which there must be one, and the rest. -/
def scanDigits (text : List Char) : Option (List Char × List Char) :=
  let (digits, rest) := text.span isDigit
  if digits.isEmpty then none else some (digits, rest)

/-- The digits before a point: a lone zero, or digits that do not start with
one. -/
def scanWhole : List Char → Option (List Char × List Char)
  | '0' :: rest => some (['0'], rest)
  | text => scanDigits text

/-- A point and the digits after it, if there is a point. -/
def scanFraction : List Char → Option (List Char × List Char)
  | '.' :: rest => do
    let (digits, rest) ← scanDigits rest
    return ('.' :: digits, rest)
  | text => some ([], text)

/-- The sign of an exponent, if there is one. -/
def scanSign : List Char → List Char × List Char
  | '+' :: rest => (['+'], rest)
  | '-' :: rest => (['-'], rest)
  | text => ([], text)

/-- An exponent with its mark, if there is one. -/
def scanExponent : List Char → Option (List Char × List Char)
  | c :: rest =>
    if c = 'e' ∨ c = 'E' then do
      let (sign, rest) := scanSign rest
      let (digits, rest) ← scanDigits rest
      return (c :: (sign ++ digits), rest)
    else some ([], c :: rest)
  | [] => some ([], [])

/-- The number without its sign at the front, and the rest. -/
def scanUnsigned (text : List Char) : Option (List Char × List Char) := do
  let (whole, rest) ← scanWhole text
  let (fraction, rest) ← scanFraction rest
  let (exponent, rest) ← scanExponent rest
  return (whole ++ fraction ++ exponent, rest)

/-- The number at the front, and the rest. -/
def scanNumber : List Char → Option (List Char × List Char)
  | '-' :: rest => do
    let (literal, rest) ← scanUnsigned rest
    return ('-' :: literal, rest)
  | text => scanUnsigned text

/-- The value of a number that is written with digits alone. -/
def natural? (literal : List Char) : Option Nat :=
  if literal.isEmpty then none else Text.decimalFrom? 0 literal

/-! ## Tokens -/

/-- The blanks between tokens. -/
def isGap (c : Char) : Bool := c == ' ' || c == '\n' || c == '\t' || c == '\r'

/-- The token at the front of a text, and the rest. -/
def scanToken (text : List Char) : Option (Token × List Char) :=
  match text with
  | '{' :: rest => some (.openRecord, rest)
  | '}' :: rest => some (.closeRecord, rest)
  | '[' :: rest => some (.openList, rest)
  | ']' :: rest => some (.closeList, rest)
  | ':' :: rest => some (.colon, rest)
  | ',' :: rest => some (.comma, rest)
  | '"' :: rest => (scanString rest).map fun (pieces, rest) => (.text pieces, rest)
  | 't' :: 'r' :: 'u' :: 'e' :: rest => some (.bool true, rest)
  | 'f' :: 'a' :: 'l' :: 's' :: 'e' :: rest => some (.bool false, rest)
  | 'n' :: 'u' :: 'l' :: 'l' :: rest => some (.null, rest)
  | _ => (scanNumber text).map fun (literal, rest) => (.number literal, rest)

/-- The tokens of a text, for a budget of at least its length. -/
def tokensWithin : Nat → List Char → List Token
  | 0, text => if text.all isGap then [] else [.invalid]
  | budget + 1, text =>
    match text.dropWhile isGap with
    | [] => []
    | c :: rest =>
      match scanToken (c :: rest) with
      | none => [.invalid]
      | some (token, rest) => token :: tokensWithin budget rest

/-- The tokens of a text. -/
def tokens (text : List Char) : List Token := tokensWithin text.length text

end WordMachine.Json
