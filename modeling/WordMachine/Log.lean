import WordMachine.Text.Blank

/-!
# Log lines

Messages have a level and are written as lines.  Settings decide which levels
are written and whether a line carries a timestamp and its level; two
environment variables change the settings at the start of a command.

## Main definitions

* `Log.Level`, `Log.Level.parse` — levels and their names
* `Log.Settings`, `Log.Settings.line` — what a message looks like
* `Log.configure` — settings from the environment
-/

namespace WordMachine.Log

/-- The level of a message. -/
inductive Level where
  | info
  | warn
  | error
  deriving DecidableEq, Repr

namespace Level

/-- The name of a level in a line. -/
def name : Level → String
  | .info => "INFO"
  | .warn => "WARN"
  | .error => "ERROR"

/-- Levels in order of urgency. -/
def rank : Level → Nat
  | .info => 1
  | .warn => 2
  | .error => 3

/-- The level with the given name, in either case and with blanks around it;
otherwise the name as it was understood. -/
def parse (text : String) : Except String Level :=
  let name := String.ofList ((Text.trim text.toList).map Char.toLower)
  if name = "info" then .ok .info
  else if name = "warn" ∨ name = "warning" then .ok .warn
  else if name = "error" then .ok .error
  else .error name

/-- The complaint about a name that is no level. -/
def unknown (name : String) : String := "unknown log level '" ++ name ++ "'"

end Level

/-- A message and its level. -/
structure Message where
  level : Level
  text : String
  deriving DecidableEq, Repr

/-- What is written, and how. -/
structure Settings where
  minimum : Level := .info
  showTimestamp : Bool := true
  showLevel : Bool := true
  deriving DecidableEq, Repr

namespace Settings

/-- Whether messages of a level are written. -/
def enabled (s : Settings) (level : Level) : Bool := s.minimum.rank ≤ level.rank

/-- The line of a message, empty if it is not written. -/
def line (s : Settings) (timestamp : String) (m : Message) : String :=
  if s.enabled m.level then
    (if s.showTimestamp then timestamp ++ " " else "")
      ++ (if s.showLevel then "[" ++ m.level.name ++ "] " else "")
      ++ m.text ++ "\n"
  else ""

/-- The lines of messages in order. -/
def lines (s : Settings) (timestamp : String) (messages : List Message) : String :=
  String.join (messages.map (s.line timestamp))

end Settings

/-- The variable that names the least level written. -/
def levelVariable : String := "RAINVM_LOG_LEVEL"

/-- The variable that switches timestamps on and off. -/
def timestampVariable : String := "RAINVM_LOG_TIMESTAMPS"

/-- Applies the value of the level variable. -/
def applyLevel (s : Settings) : Option String → Settings × List Message
  | none => (s, [])
  | some value =>
    match Level.parse value with
    | .ok level => ({ s with minimum := level }, [])
    | .error name => (s, [⟨.warn, levelVariable ++ ": " ++ Level.unknown name⟩])

/-- Applies the value of the timestamp variable. -/
def applyTimestamps (s : Settings) : Option String → Settings × List Message
  | none => (s, [])
  | some value =>
    let name := String.ofList (Text.trim value.toList)
    if name = "0" ∨ name = "false" then ({ s with showTimestamp := false }, [])
    else if name = "1" ∨ name = "true" then ({ s with showTimestamp := true }, [])
    else (s, [⟨.warn, timestampVariable ++ ": expected 0 or 1, got '" ++ name ++ "'"⟩])

/-- The settings that the two variables leave, and the lines of complaints
about values that are not understood.  Each complaint is written with the
settings of its moment. -/
def configure (s : Settings) (timestamp : String) (level timestamps : Option String) :
    Settings × String :=
  let (first, complaints) := applyLevel s level
  let (second, further) := applyTimestamps first timestamps
  (second, first.lines timestamp complaints ++ second.lines timestamp further)

end WordMachine.Log
