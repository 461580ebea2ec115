import WordMachine.Operand

/-!
# Assembly errors

An error carries the line and the column of the token that caused it, both
counted from one, columns in bytes.  A diagnostic shows the line with a mark
under that column.

## Main definitions

* `Assembly.Cause`, `Assembly.Error` — what is wrong, and where
* `Assembly.Error.diagnostic` — the error with its line
-/

namespace WordMachine.Assembly

/-- What is wrong with a line. -/
inductive Cause where
  | malformedMarker (code : String)
  | sourceOrder (expected found : Nat)
  | arity (head : String) (expected found : Nat)
  | invalidNumber (text : String) (error : NumeralError)
  | notAByte (value : Word)
  | notASize (value : Word)
  | notASignedByte (text : String)
  | unknownDirective (name : String)
  | unknownInstruction (name : String)
  | poolFull
  | laneWidth
  | unknownLogic (text : String)
  | unknownMode (text : String)
  | operand (error : OperandError)
  deriving DecidableEq, Repr

/-- The wording of a cause. -/
def Cause.message : Cause → String
  | .malformedMarker code => "malformed section marker '" ++ code ++ "'"
  | .sourceOrder expected found =>
    "expected [ source " ++ Text.decimal expected ++ " ], found [ source "
      ++ Text.decimal found ++ " ]"
  | .arity head expected found =>
    head ++ " takes " ++ Text.decimal expected ++ " operand(s), found " ++ Text.decimal found
  | .invalidNumber text error => "invalid number '" ++ text ++ "': " ++ error.message
  | .notAByte value => value.decimal ++ " does not fit in one byte"
  | .notASize value => value.decimal ++ " is too large"
  | .notASignedByte text => "'" ++ text ++ "' is not in -128..=127"
  | .unknownDirective name => "unknown directive '" ++ name ++ "'"
  | .unknownInstruction name => "unknown instruction '" ++ name ++ "'"
  | .poolFull => "constant pool is full (128 entries)"
  | .laneWidth => "lane width too large"
  | .unknownLogic text => "expected every or any, found '" ++ text ++ "'"
  | .unknownMode text => "expected min, max or first, found '" ++ text ++ "'"
  | .operand error => error.instruction.mnemonic ++ ": " ++ error.cause.message

/-- A cause and where it was found. -/
structure Error where
  line : Nat
  column : Nat
  cause : Cause
  deriving DecidableEq, Repr

namespace Error

/-- The wording of an error. -/
def message (e : Error) : String :=
  "line " ++ Text.decimal e.line ++ ", column " ++ Text.decimal e.column ++ ": "
    ++ e.cause.message

/-- A number in at least four places. -/
def gutter (n : Nat) : String := String.ofList ((Nat.toDigits 10 n).leftpad 4 ' ')

/-- The text without carriage returns at its end. -/
def dropReturns (line : List Char) : List Char :=
  (line.reverse.dropWhile (· == '\r')).reverse

/-- The line of an error with a mark under its column. -/
def excerpt (e : Error) (line : List Char) : String :=
  "  |\n" ++ gutter e.line ++ " | " ++ String.ofList (dropReturns line) ++ "\n  | "
    ++ String.ofList (List.replicate (e.column - 1) ' ') ++ "^\n"

/-- The error, its place in a file, and its line, if the text has it. -/
def diagnostic (e : Error) (file : String) (text : String) : String :=
  "error: " ++ e.cause.message ++ "\n --> " ++ file ++ ":" ++ Text.decimal e.line ++ ":"
    ++ Text.decimal e.column ++ "\n"
    ++ ((Text.lines text.toList)[e.line - 1]?.map e.excerpt).getD ""

end Error

end WordMachine.Assembly
