import WordMachine.Json.Reader

/-!
# JSON values

A JSON value as a tree, with numbers kept as they are written and records in
the order of their keys.

## Main definitions

* `Json.Value` — the trees
* `Json.Value.compact`, `Json.Value.pretty` — writing
* `Json.Value.parse` — reading any value
-/

namespace WordMachine.Json

/-- A JSON value. -/
inductive Value where
  | null
  | bool (value : Bool)
  | number (literal : String)
  | text (value : String)
  | list (items : List Value)
  | record (fields : List (String × Value))
  deriving Inhabited, Repr

namespace Value

/-- A number without sign, fraction or exponent. -/
def nat (n : Nat) : Value := .number (Text.decimal n)

/-! ## Writing -/

/-- A character as it stands in a string. -/
def escape (c : Char) : List Char :=
  if c = '"' then ['\\', '"']
  else if c = '\\' then ['\\', '\\']
  else if c.toNat < 0x20 then
    ['\\', 'u', '0', '0', Text.hexDigit (c.toNat / 16), Text.hexDigit (c.toNat % 16)]
  else [c]

/-- A string in quotes. -/
def quoted (text : String) : String :=
  String.ofList (('"' :: text.toList.flatMap escape) ++ ['"'])

mutual

/-- A value without blanks. -/
def compact : Value → String
  | .null => "null"
  | .bool true => "true"
  | .bool false => "false"
  | .number literal => literal
  | .text value => quoted value
  | .list items => "[" ++ String.intercalate "," (compactItems items) ++ "]"
  | .record fields => "\x7b" ++ String.intercalate "," (compactFields fields) ++ "\x7d"

/-- The items of a list. -/
def compactItems : List Value → List String
  | [] => []
  | v :: vs => v.compact :: compactItems vs

/-- The fields of a record. -/
def compactFields : List (String × Value) → List String
  | [] => []
  | (key, v) :: vs => (quoted key ++ ":" ++ v.compact) :: compactFields vs

end

/-- A line break and the indentation of a depth. -/
def lineBreak (depth : Nat) : String := "\n" ++ String.ofList (List.replicate (2 * depth) ' ')

/-- Items between brackets, each on a line of its own. -/
def block (depth : Nat) (opening closing : String) (items : List String) : String :=
  if items.isEmpty then opening ++ closing
  else
    opening ++ lineBreak (depth + 1)
      ++ String.intercalate ("," ++ lineBreak (depth + 1)) items
      ++ lineBreak depth ++ closing

mutual

/-- A value with one item or field on a line, two blanks deeper at each
level. -/
def prettyAt (depth : Nat) : Value → String
  | .list items => block depth "[" "]" (prettyItems (depth + 1) items)
  | .record fields => block depth "\x7b" "\x7d" (prettyFields (depth + 1) fields)
  | v => v.compact

/-- The items of a list. -/
def prettyItems (depth : Nat) : List Value → List String
  | [] => []
  | v :: vs => v.prettyAt depth :: prettyItems depth vs

/-- The fields of a record. -/
def prettyFields (depth : Nat) : List (String × Value) → List String
  | [] => []
  | (key, v) :: vs => (quoted key ++ ": " ++ v.prettyAt depth) :: prettyFields depth vs

end

/-- A value over several lines. -/
def pretty (v : Value) : String := v.prettyAt 0

/-! ## Reading -/

/-- A value of any kind, for a budget of at least the number of tokens. -/
def readWithin : Nat → Reader Value
  | 0, _ => .error .malformed
  | budget + 1, input =>
    match input with
    | .null :: rest => .ok (.null, rest)
    | .bool b :: rest => .ok (.bool b, rest)
    | .number literal :: rest => .ok (.number (String.ofList literal), rest)
    | .text _ :: _ => do
      let (chars, rest) ← Json.text input
      return (.text (String.ofList chars), rest)
    | .openList :: _ => do
      let (items, rest) ← listOf (readWithin budget) input
      return (.list items, rest)
    | .openRecord :: .closeRecord :: rest => .ok (.record [], rest)
    | .openRecord :: rest => do
      let (field, rest) ← readField (readWithin budget) rest
      let (fields, rest) ← fieldsWithin (readWithin budget) rest.length rest
      return (.record (field :: fields), rest)
    | _ => .error .malformed
where
  /-- A key, its colon and its value. -/
  readField (value : Reader Value) : Reader (String × Value) := fun input => do
    let (key, rest) ← Json.text input
    match rest with
    | .colon :: rest =>
      let (v, rest) ← value rest
      return ((String.ofList key, v), rest)
    | _ => .error .malformed
  /-- The fields after the first one. -/
  fieldsWithin (value : Reader Value) : Nat → Reader (List (String × Value))
    | 0, _ => .error .malformed
    | budget + 1, input =>
      match input with
      | .closeRecord :: rest => .ok ([], rest)
      | .comma :: rest => do
        let (field, rest) ← readField value rest
        let (fields, rest) ← fieldsWithin value budget rest
        return (field :: fields, rest)
      | _ => .error .malformed

/-- Reads a text that is one value. -/
def parse (text : String) : Except ReadError Value :=
  read (fun input => readWithin (input.length + 1) input) text.toList

end Value

end WordMachine.Json
