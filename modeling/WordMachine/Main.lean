import Std.Time.DateTime.Timestamp
import WordMachine.Calendar
import WordMachine.Shell.Assembler

/-!
# The command line

The two tools as one program: called as `assembler` it assembles, and under
any other name it runs, combines and describes.  A command works on a `Disk`,
so the files and directories that its arguments may mean are read before it,
and the files that it changed are written after it.
-/

namespace WordMachine.Shell

/-- The paths that a command with the given arguments may touch. -/
def mentioned (arguments : List String) : List String :=
  arguments.flatMap fun argument =>
    [argument, Assembler.defaultOutput argument false, Assembler.defaultOutput argument true]

/-- Adds what stands at a location, if anything does. -/
def visit (disk : Disk) (location : Location) : IO Disk := do
  let path := location.path
  try
    return disk.put location (← IO.FS.readBinFile path).toList
  catch _ =>
    try
      let found ← IO.FS.realPath path
      if ← found.isDir then
        return { disk with directories := location :: disk.directories }
      else return disk
    catch _ => return disk

/-- The files and directories on the way to the given paths. -/
def survey (paths : List String) : IO Disk := do
  let mut disk : Disk := {}
  for path in paths do
    let location := Location.ofPath path.toList
    for n in List.range location.length do
      disk ← visit disk (location.take (n + 1))
  return disk

/-- Writes the files in which two disks differ. -/
def store (before after : Disk) : IO Unit :=
  after.files.forM fun (location, bytes) =>
    unless before.files.contains (location, bytes) do
      IO.FS.writeBinFile location.path ⟨bytes.toArray⟩

end WordMachine.Shell

open WordMachine in
/-- Runs the tool under whose name the program was called. -/
def main (arguments : List String) : IO UInt32 := do
  let name := (← IO.appPath).toString
  let vars : Shell.Variables :=
    { logLevel := ← IO.getEnv Log.levelVariable
      logTimestamps := ← IO.getEnv Log.timestampVariable }
  let now ← Std.Time.Timestamp.now
  let disk ← Shell.survey (Shell.mentioned arguments)
  let tool := if Path.fileName? name.toList = some "assembler".toList then Assembler.tool
    else Runner.tool
  let seen := Shell.perform vars
    (Calendar.stamp now.toMillisecondsSinceUnixEpoch.toInt.toNat) (tool disk name arguments)
  Shell.store disk seen.disk
  IO.eprint seen.log
  IO.print seen.output
  return seen.exitCode.toUInt32
