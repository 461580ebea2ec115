import WordMachine.Shell.Path
import WordMachine.Text.Blank

/-!
# Files

A disk lists the files and directories that a command can see.  A directory
exists if it is listed or holds a file.

## Main definitions

* `Location` — where files are
* `Disk`, `Disk.read`, `Disk.readText`, `Disk.write`, `Disk.holds` — files
* `IoError` — why a file cannot be read or written
-/

namespace WordMachine

/-- Why a file cannot be read or written. -/
inductive IoError where
  | notFound
  | notDirectory
  | isDirectory
  | nameTooLong
  | nulByte
  | notText
  deriving DecidableEq, Repr

/-- The wording of a file error. -/
def IoError.message : IoError → String
  | .notFound => "No such file or directory (os error 2)"
  | .notDirectory => "Not a directory (os error 20)"
  | .isDirectory => "Is a directory (os error 21)"
  | .nameTooLong => "File name too long (os error 36)"
  | .nulByte => "file name contained an unexpected NUL byte"
  | .notText => "stream did not contain valid UTF-8"

/-- Where a file is: the names that lead to it from the working directory, or
from the root after a name that is a slash. -/
abbrev Location := List (List Char)

namespace Location

/-- The root. -/
def root : Location := [['/']]

/-- Whether a location is the working directory or lies on the way from it to
the root; such directories always exist. -/
def isAnchor (location : Location) : Bool :=
  location == root || location.all (· == ['.', '.'])

/-- The directory above a location; the root is above itself. -/
def above (location : Location) : Location :=
  if location = root then root
  else if location.all (· == ['.', '.']) then location ++ [['.', '.']]
  else location.dropLast

/-- What a name leads to from a directory: a point stays there and two points
go up. -/
def step (location : Location) (name : List Char) : Location :=
  if name = ['.'] then location
  else if name = ['.', '.'] then location.above
  else location ++ [name]

/-- Where a path starts. -/
def start (path : List Char) : Location := if Path.isAbsolute path then root else []

/-- The location that a path names. -/
def ofPath (path : List Char) : Location := (Path.steps path).foldl step (start path)

/-- A path to a location. -/
def path (location : Location) : String := String.ofList (['/'].intercalate location)

end Location

/-- The files and directories that a command can see. -/
structure Disk where
  files : List (Location × List UInt8) := []
  directories : List Location := []

/-- What is found at a location. -/
inductive Entry where
  | file (bytes : List UInt8)
  | directory
  | missing

namespace Disk

/-- Whether one location lies above another. -/
def isAbove (outer inner : Location) : Bool :=
  outer.length < inner.length && inner.take outer.length == outer

/-- What is found at a location. -/
def entry (d : Disk) (location : Location) : Entry :=
  match d.files.find? (·.1 == location) with
  | some (_, bytes) => .file bytes
  | none =>
    if location.isAnchor || d.directories.contains location
        || d.files.any (fun f => isAbove location f.1) then .directory
    else .missing

/-- The most bytes that a name may have. -/
def maxName : Nat := 255

/-- The most bytes that a path may have. -/
def maxPath : Nat := 4095

/-- Refuses the paths that name nothing on any disk. -/
def checkPath (path : List Char) : Except IoError Unit :=
  if path.contains '\x00' then .error .nulByte
  else if path.isEmpty then .error .notFound
  else if Text.byteSize path > maxPath then .error .nameTooLong
  else .ok ()

/-- Follows names from a location, which must be a directory if there is a
name to follow.  What the last name leads to need not exist. -/
def follow (d : Disk) (location : Location) : List (List Char) → Except IoError Location
  | [] => .ok location
  | name :: rest =>
    match d.entry location with
    | .file _ => .error .notDirectory
    | .missing => .error .notFound
    | .directory =>
      if Text.byteSize name > maxName then .error .nameTooLong
      else d.follow (location.step name) rest

/-- What a path leads to. -/
def find (d : Disk) (path : List Char) : Except IoError Entry := do
  checkPath path
  let location ← d.follow (.start path) (Path.steps path)
  match d.entry location with
  | .missing => .error .notFound
  | .file bytes => if Path.endsInSlash path then .error .notDirectory else .ok (.file bytes)
  | .directory => .ok .directory

/-- The bytes of a file. -/
def read (d : Disk) (path : String) : Except IoError (List UInt8) := do
  match ← d.find path.toList with
  | .file bytes => .ok bytes
  | .directory => .error .isDirectory
  | .missing => .error .notFound

/-- The text of a file. -/
def readText (d : Disk) (path : String) : Except IoError String := do
  let bytes ← d.read path
  match String.fromUTF8? ⟨bytes.toArray⟩ with
  | some text => .ok text
  | none => .error .notText

/-- Whether a path leads to a file or directory. -/
def holds (d : Disk) (path : List Char) : Bool := (d.find path).isOk

/-- The disk with the file at a location replaced or added. -/
def put (d : Disk) (location : Location) (bytes : List UInt8) : Disk :=
  if d.files.any (·.1 == location) then
    { d with files := d.files.map fun f => if f.1 == location then (location, bytes) else f }
  else { d with files := d.files ++ [(location, bytes)] }

/-- Writes a file, whose directory must exist.  A path that ends in a slash
names a directory, whether or not there is one: its last name is not looked
up, only the directory that would hold it. -/
def write (d : Disk) (path : String) (bytes : List UInt8) : Except IoError Disk := do
  let chars := path.toList
  checkPath chars
  let steps := Path.steps chars
  let location ← d.follow (.start chars)
    (if Path.endsInSlash chars then steps.dropLast ++ [['.']] else steps)
  match d.entry location with
  | .directory => .error .isDirectory
  | _ => return d.put location bytes

end Disk

end WordMachine
