/-!
# File paths

A path is a text with slashes between its names.  Empty names and single
points stand for nothing, except that a point at the very start is kept.
Where a path is followed, though, a point is a step that stays in a directory,
and a slash at the end asks for one.

## Main definitions

* `Path.names`, `Path.isAbsolute` — what a path names
* `Path.steps`, `Path.endsInSlash` — how a path is followed
* `Path.fileName?`, `Path.stem?`, `Path.extension?` — its last name
* `Path.parent?`, `Path.join` — the directory of a path, and a path in a
  directory
-/

namespace WordMachine.Path

/-- Whether a path starts at the root. -/
def isAbsolute (path : List Char) : Bool := path.head? == some '/'

/-- The names of a path, without those that stand for nothing. -/
def names (path : List Char) : List (List Char) :=
  (path.splitOn '/').filter fun name => !name.isEmpty && name != ['.']

/-- The names of a path with the single points among them. -/
def steps (path : List Char) : List (List Char) :=
  (path.splitOn '/').filter (!·.isEmpty)

/-- Whether a path ends in a slash. -/
def endsInSlash (path : List Char) : Bool := path.getLast? == some '/'

/-- The last name of a path, unless that leads upward. -/
def fileName? (path : List Char) : Option (List Char) :=
  (names path).getLast?.filter (· != ['.', '.'])

/-- The parts of a name before and after its last point, if a point stands
after the first character. -/
def splitName (name : List Char) : List Char × Option (List Char) :=
  let after := name.reverse.takeWhile (· != '.')
  let before := name.reverse.drop (after.length + 1)
  if before.isEmpty then (name, none) else (before.reverse, some after.reverse)

/-- The last name without its extension. -/
def stem? (path : List Char) : Option (List Char) :=
  (fileName? path).map fun name => (splitName name).1

/-- The extension of the last name. -/
def extension? (path : List Char) : Option (List Char) :=
  (fileName? path).bind fun name => (splitName name).2

/-- A path read backwards, without the slashes and points at its end that
stand for nothing; a slash or point that is the whole path stays. -/
def trimBack : List Char → List Char
  | '/' :: c :: rest => trimBack (c :: rest)
  | '.' :: '/' :: rest => if rest.isEmpty then ['/'] else trimBack ('/' :: rest)
  | path => path

/-- The path without its last name; nothing for the root and the empty
path. -/
def parent? (path : List Char) : Option (List Char) :=
  match trimBack path.reverse with
  | [] => none
  | ['/'] => none
  | back => some (trimBack (back.dropWhile (· != '/'))).reverse

/-- The path of a name in a directory. -/
def join (directory name : List Char) : List Char :=
  if directory.isEmpty then name
  else if directory.getLast? == some '/' then directory ++ name
  else directory ++ '/' :: name

end WordMachine.Path
