import WordMachine.Machine.Evaluate
import WordMachine.Shell.Session

/-!
# The program tool

The tool runs a program, combines two programs into one, or describes a
program.

## Main definitions

* `Runner.runCommand`, `Runner.combineCommand`, `Runner.inspectCommand` — the
  three commands
* `Runner.tool` — the tool
-/

namespace WordMachine.Runner

open Shell

/-- How to use the tool, for a given name of it. -/
def usage (name : String) : String :=
  String.intercalate "\n"
    [ "RainVM",
      "",
      "USAGE:",
      "    " ++ name ++ " run <program> [OPTIONS]",
      "    " ++ name ++ " combine <a> <b> --output <file> [OPTIONS]",
      "    " ++ name ++ " inspect <program>",
      "",
      "PROGRAMS:",
      "    Binary (.bin), JSON, or assembler text (.rain)",
      "",
      "RUN OPTIONS:",
      "    -w, --world <file>      JSON chain snapshot backing external reads",
      "    -e, --entry <n>         Source to evaluate (defaults to 0)",
      "",
      "COMBINE OPTIONS:",
      "    -o, --output <file>     Output file path",
      "    --splice-at <n>         First source of <a> receiving code (defaults to 0)",
      "    --sources <n>           Leading sources of <b> to merge (defaults to 1)",
      "    --position <p,..>       Byte offsets to insert at instead of appending",
      "    --json                  Write JSON instead of the binary format",
      "",
      "EXAMPLES:",
      "    " ++ name ++ " run price.rain --world chain.json",
      "    " ++ name ++ " combine price.bin discount.bin -o priced.bin",
      "    " ++ name ++ " inspect priced.bin",
      "" ]

/-- Whether an argument is a flag. -/
def isFlag (argument : String) : Bool := argument.toList.head? == some '-'

/-- The complaint about an argument that has no place. -/
def unexpected {α : Type} (argument : String) : Step α :=
  stop ("Unexpected argument: " ++ argument)

/-! ## Running -/

/-- The arguments of a run. -/
structure RunRequest where
  program : Option String := none
  world : Option String := none
  entry : Nat := 0

/-- Reads the arguments of a run. -/
def runRequest (r : RunRequest) : List String → Step RunRequest
  | [] => .ok r
  | argument :: rest =>
    if argument = "--world" ∨ argument = "-w" then
      match rest with
      | value :: rest => runRequest { r with world := some value } rest
      | [] => missingValue argument
    else if argument = "--entry" ∨ argument = "-e" then
      match rest with
      | value :: rest => do
        let n ← numberOf argument value
        runRequest { r with entry := n } rest
      | [] => missingValue argument
    else if r.program.isNone && !isFlag argument then
      runRequest { r with program := some argument } rest
    else unexpected argument

/-- The messages among events. -/
def messagesOf (events : List Event) : List Log.Message :=
  events.filterMap fun
    | .logged message => some message
    | .asked _ => none

/-- Runs a program and prints its final stack. -/
def runCommand (disk : Disk) (arguments : List String) : Step Ending := do
  let request ← runRequest {} arguments
  let some path := request.program
    | stop "run requires a program"
  let program ← loadProgram disk path
  orStop Fault.message program.check
  let env ← match request.world with
    | some world => loadSnapshot disk world
    | none => .ok {}
  let outcome := run Table.standard env request.entry (Machine.ofProgram program)
  let messages := messagesOf outcome.events
  match outcome.result with
  | .error fault => .error (messages ++ [⟨.error, fault.message⟩])
  | .ok stack =>
    return {
      exitCode := 0
      output := String.join (stack.map fun value => value.decimal ++ "\n")
      messages := messages ++ [⟨.info, "Ran source " ++ Text.decimal request.entry ++ " of "
        ++ path ++ " (" ++ Text.decimal stack.length ++ " value(s) on the stack)"⟩]
      disk := disk }

/-! ## Combining -/

/-- The arguments of a combination. -/
structure CombineRequest where
  inputs : List String := []
  output : Option String := none
  options : LinkOptions := {}
  json : Bool := false

/-- The offsets in a list with commas. -/
def offsetsOf (flag value : String) : Step (List Nat) :=
  (value.toList.splitOn ',').mapM fun part =>
    numberOf flag (String.ofList (Text.trim part))

/-- The request with the value of a flag. -/
def CombineRequest.set (r : CombineRequest) (flag value : String) : Step CombineRequest := do
  if flag = "--splice-at" then
    let n ← numberOf flag value
    return { r with options := { r.options with spliceAt := n } }
  if flag = "--sources" then
    let n ← numberOf flag value
    return { r with options := { r.options with merged := n } }
  if flag = "--position" then
    let offsets ← offsetsOf flag value
    return { r with options := { r.options with positions := some offsets } }
  return { r with output := some value }

/-- The flags of a combination that take a value. -/
def combineFlags : List String := ["--output", "-o", "--splice-at", "--sources", "--position"]

/-- Reads the arguments of a combination. -/
def combineRequest (r : CombineRequest) : List String → Step CombineRequest
  | [] => .ok r
  | argument :: rest =>
    if combineFlags.contains argument then
      match rest with
      | value :: rest => do
        let next ← r.set argument value
        combineRequest next rest
      | [] => missingValue argument
    else if argument = "--json" then combineRequest { r with json := true } rest
    else if !isFlag argument then
      combineRequest { r with inputs := r.inputs ++ [argument] } rest
    else unexpected argument

/-- The bytes of a program file in the wanted format. -/
def fileBytes (program : Program) (json : Bool) : List UInt8 :=
  if json then program.toJsonText.toUTF8.toList else program.toBytes

/-- Links two programs and writes the result. -/
def combineCommand (disk : Disk) (arguments : List String) : Step Ending := do
  let request ← combineRequest {} arguments
  match request.inputs, request.output with
  | [first, second], some output =>
    let a ← loadProgram disk first
    let b ← loadProgram disk second
    let combined ← orStop LinkError.message (a.link b request.options)
    let written ← orStop (fun e => (Failure.io output e).message)
      (disk.write output (fileBytes combined request.json))
    return {
      exitCode := 0
      messages := [⟨.info, "Combined " ++ first ++ " + " ++ second ++ " -> " ++ output ++ " ("
        ++ Text.decimal combined.sources.length ++ " source(s), "
        ++ Text.decimal combined.constants.length ++ " constant(s))"⟩]
      disk := written }
  | _, _ => stop "combine requires two programs and --output"

/-! ## Describing -/

/-- One line for each source from `index` on. -/
def describeSources (index : Nat) : List Source → String
  | [] => ""
  | source :: rest =>
    "  [" ++ Text.decimal index ++ "] " ++ Text.decimal (pairs source).length
      ++ " instruction(s), " ++ Text.decimal source.length ++ " byte(s)\n"
      ++ describeSources (index + 1) rest

/-- A description of a program. -/
def describe (p : Program) : String :=
  "fingerprint:      " ++ p.fingerprint ++ "\n"
    ++ "constants:        " ++ Text.decimal p.constants.length ++ "\n"
    ++ "stack length:     " ++ Text.decimal p.stackLength.toNat ++ "\n"
    ++ "arguments length: " ++ Text.decimal p.argumentsLength.toNat ++ "\n"
    ++ "sources:          " ++ Text.decimal p.sources.length ++ "\n"
    ++ describeSources 0 p.sources
    ++ match p.check with
      | .ok _ => "valid:            yes\n"
      | .error fault => "valid:            no (" ++ fault.message ++ ")\n"

/-- Prints a description of a program. -/
def inspectCommand (disk : Disk) : List String → Step Ending
  | [path] => do
    let program ← loadProgram disk path
    return { exitCode := 0, output := describe program, disk := disk }
  | _ => stop "inspect requires exactly one program"

/-! ## The tool -/

/-- The end of a call that is answered with the usage. -/
def usageEnding (disk : Disk) (name : String) (exitCode : UInt8)
    (before : List Log.Message) : Ending :=
  { exitCode := exitCode, messages := before ++ [⟨.info, usage name⟩], disk := disk }

/-- The tool, called by a name with arguments. -/
def tool (disk : Disk) (name : String) : List String → Ending
  | [] => usageEnding disk name 1 []
  | command :: arguments =>
    if command = "--help" ∨ command = "-h" then usageEnding disk name 0 []
    else if command = "run" then settle disk (runCommand disk arguments)
    else if command = "combine" then settle disk (combineCommand disk arguments)
    else if command = "inspect" then settle disk (inspectCommand disk arguments)
    else usageEnding disk name 1 [⟨.error, "Unknown command: " ++ command ++ "\n"⟩]

end WordMachine.Runner
