import WordMachine.Assembly.Assemble
import WordMachine.Chain.Snapshot
import WordMachine.Linking.Link
import WordMachine.Log
import WordMachine.Program.Json
import WordMachine.Shell.Disk

/-!
# What commands share

A command reads arguments and files, logs messages, prints lines and writes at
most one file.  It ends early after logging what went wrong.

## Main definitions

* `Shell.Failure` — errors of any kind, with one wording
* `Shell.Ending`, `Shell.Step` — how commands end and what they do until then
* `Shell.assembleFile`, `Shell.loadProgram`, `Shell.loadSnapshot` — reading
  files
* `Shell.perform` — a command with its log
-/

namespace WordMachine.Shell

/-- What can go wrong beyond the arguments. -/
inductive Failure where
  | fault (error : Fault)
  | link (error : LinkError)
  | decode (error : DecodeError)
  | assembly (error : Assembly.Error)
  /-- A file cannot be read or written. -/
  | io (path : String) (error : IoError)
  /-- A file is no chain snapshot. -/
  | snapshot (path : String) (error : Json.ReadError)
  deriving DecidableEq, Repr

/-- The wording of a failure. -/
def Failure.message : Failure → String
  | .fault error => error.message
  | .link error => error.message
  | .decode error => error.message
  | .assembly error => error.message
  | .io path error => "io error: " ++ path ++ ": " ++ error.message
  | .snapshot path .malformed => "decoding error: " ++ path
  | .snapshot path (.refused text) => "decoding error: " ++ path ++ ": " ++ text

/-- How a command ends. -/
structure Ending where
  exitCode : UInt8
  /-- What was printed. -/
  output : String := ""
  messages : List Log.Message := []
  disk : Disk

/-- A part of a command: a value, or the messages with which it ends early. -/
abbrev Step (α : Type) := Except (List Log.Message) α

/-- Ends with a message. -/
def stop {α : Type} (text : String) : Step α := .error [⟨.error, text⟩]

/-- Ends with the wording of a failure. -/
def orStop {ε α : Type} (wording : ε → String) : Except ε α → Step α
  | .ok value => .ok value
  | .error e => stop (wording e)

/-! ## Reading files -/

/-- A text assembled under the name of its file.  An error is logged with its
line as well. -/
def assembleNamed (name text : String) : List Log.Message × Except Assembly.Error Program :=
  match Assembly.assemble text with
  | .ok program => ([], .ok program)
  | .error e => ([⟨.error, e.diagnostic name text⟩], .error e)

/-- The program of a file of assembler text. -/
def assembleFile (disk : Disk) (path : String) : List Log.Message × Except Failure Program :=
  match disk.readText path with
  | .error e => ([], .error (.io path e))
  | .ok text =>
    let (messages, result) := assembleNamed path text
    (messages, result.mapError .assembly)

/-- The extension of files of assembler text. -/
def assemblyExtension : List Char := ['r', 'a', 'i', 'n']

/-- The program of a file in any format; the extension tells assembler
text. -/
def loadProgram (disk : Disk) (path : String) : Step Program :=
  if Path.extension? path.toList = some assemblyExtension then
    match assembleFile disk path with
    | (_, .ok program) => .ok program
    | (messages, .error e) => .error (messages ++ [⟨.error, e.message⟩])
  else do
    let bytes ← orStop (fun e => (Failure.io path e).message) (disk.read path)
    orStop DecodeError.message (Program.ofAny bytes)

/-- The environment of a snapshot file. -/
def loadSnapshot (disk : Disk) (path : String) : Step Environment := do
  let text ← orStop (fun e => (Failure.io path e).message) (disk.readText path)
  let snapshot ← orStop (fun e => (Failure.snapshot path e).message) (Snapshot.ofJson text)
  return snapshot.environment

/-! ## Arguments -/

/-- The number that an argument denotes. -/
def numberOf (flag value : String) : Step Nat :=
  match Text.size? value.toList with
  | some n => .ok n.toNat
  | none => stop ("Invalid " ++ flag ++ ": '" ++ value ++ "' is not a valid number")

/-- The complaint about a flag without its value. -/
def missingValue {α : Type} (flag : String) : Step α := stop (flag ++ " requires an argument")

/-! ## Commands -/

/-- A command ends as it says, or with code 1 after the messages of an early
end. -/
def settle (disk : Disk) : Step Ending → Ending
  | .ok ending => ending
  | .error messages => { exitCode := 1, messages := messages, disk := disk }

/-- What is seen of a command from outside. -/
structure Appearance where
  exitCode : UInt8
  output : String
  log : String
  disk : Disk

/-- The variables that a command looks at. -/
structure Variables where
  logLevel : Option String := none
  logTimestamps : Option String := none

/-- Runs a command with the log that the variables ask for. -/
def perform (vars : Variables) (timestamp : String) (command : Ending) : Appearance :=
  let (settings, complaints) :=
    Log.configure {} timestamp vars.logLevel vars.logTimestamps
  { exitCode := command.exitCode
    output := command.output
    log := complaints ++ settings.lines timestamp command.messages
    disk := command.disk }

end WordMachine.Shell
