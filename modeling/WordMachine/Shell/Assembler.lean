import WordMachine.Shell.Runner

/-!
# The assembler tool

The tool assembles a file and writes the program beside it, or where it is
told to.

## Main definitions

* `Assembler.defaultOutput` — where the program goes
* `Assembler.tool` — the tool
-/

namespace WordMachine.Assembler

open Shell

/-- How to use the tool, for a given name of it. -/
def usage (name : String) : String :=
  String.intercalate "\n"
    [ "RainVM Assembler",
      "",
      "USAGE:",
      "    " ++ name ++ " <input.rain> [OPTIONS]",
      "",
      "ARGS:",
      "    <input.rain>    Assembler source file to compile",
      "",
      "OPTIONS:",
      "    -o, --output <file>     Output file path (defaults to <input>.bin)",
      "    --json                  Write the JSON program format",
      "    -h, --help              Print this help message",
      "",
      "EXAMPLES:",
      "    # Compile to default output name",
      "    " ++ name ++ " price.rain",
      "",
      "    # Compile with explicit output",
      "    " ++ name ++ " price.rain -o output.bin",
      "",
      "    # Compile to JSON",
      "    " ++ name ++ " price.rain --json",
      "" ]

/-- The options of a call. -/
structure Request where
  output : Option String := none
  json : Bool := false

/-- Reads the options after the input file. -/
def request (name : String) (r : Request) : List String → Step Request
  | [] => .ok r
  | argument :: rest =>
    if argument = "--output" ∨ argument = "-o" then
      match rest with
      | value :: rest => request name { r with output := some value } rest
      | [] => missingValue argument
    else if argument = "--json" then request name { r with json := true } rest
    else
      .error [⟨.error, "Unexpected argument: " ++ argument ++ "\n"⟩, ⟨.info, usage name⟩]

/-- The input's name with another extension, in the input's directory. -/
def defaultOutput (input : String) (json : Bool) : String :=
  let path := input.toList
  let stem := (Path.stem? path).getD []
  let directory := (Path.parent? path).getD ['.']
  let extension := if json then ".json" else ".bin"
  String.ofList (Path.join directory (stem ++ extension.toList))

/-- The directory of an output path must exist, if the path names one. -/
def checkDirectory (disk : Disk) (output : String) : Step Unit :=
  match Path.parent? output.toList with
  | none => .ok ()
  | some directory =>
    if directory.isEmpty || disk.holds directory then .ok ()
    else stop ("Output directory does not exist: " ++ String.ofList directory)

/-- The program of the input file. -/
def assembleInput (disk : Disk) (input : String) : Step Program :=
  match assembleFile disk input with
  | (_, .ok program) => .ok program
  | (messages, .error e) =>
    .error (messages ++ [⟨.error, "Assembly failed: " ++ e.message⟩])

/-- The warning about a program that fails the structural check. -/
def warnings (program : Program) : List Log.Message :=
  match program.check with
  | .ok _ => []
  | .error fault =>
    [⟨.warn, "Program references data it does not define: " ++ fault.message⟩]

/-- Assembles the input file. -/
def command (disk : Disk) (name input : String) (options : List String) : Step Ending := do
  let r ← request name {} options
  if !disk.holds input.toList then
    stop ("Input file does not exist: " ++ input)
  let output := r.output.getD (defaultOutput input r.json)
  checkDirectory disk output
  let program ← assembleInput disk input
  let bytes := Runner.fileBytes program r.json
  match disk.write output bytes with
  | .error e =>
    .error (warnings program ++ [⟨.error, "Failed to write output file: " ++ e.message⟩])
  | .ok written =>
    return {
      exitCode := 0
      messages := warnings program ++ [⟨.info, "Compiled " ++ input ++ " -> " ++ output ++ " ("
        ++ Text.decimal bytes.length ++ " bytes, fingerprint " ++ program.fingerprint ++ ")"⟩]
      disk := written }

/-- The tool, called by a name with arguments. -/
def tool (disk : Disk) (name : String) : List String → Ending
  | [] => { exitCode := 1, messages := [⟨.info, usage name⟩], disk := disk }
  | input :: options =>
    if input = "--help" ∨ input = "-h" then
      { exitCode := 0, messages := [⟨.info, usage name⟩], disk := disk }
    else settle disk (command disk name input options)

end WordMachine.Assembler
