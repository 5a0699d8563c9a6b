import ArenaHeap.Log.Filter

namespace ArenaHeap.Log

/-!
# Settings of the log

What is written, in which form and where to. The first settings that a process makes stay in
force, so there is no operation that changes them.
-/

/-- Settings of the log. -/
structure Settings where
  /-- The least level of the library's events that is written. -/
  level : Level := .info
  /-- The path of the log file, if there is to be one. -/
  path : Option String := none
  /-- Whether standard output has events as objects instead of lines. -/
  asObjects : Bool := false
  /-- Whether entering and leaving spans is written. -/
  spans : Bool := false
deriving DecidableEq, Repr

namespace Settings

/-- Settings to watch collections with. -/
def verbose : Settings := { level := .trace, spans := true }

/-- Reads settings from the variables of the environment. A level of an unknown name counts as
    `info`, and the form and the spans only ask whether their variable is set. -/
def ofEnvironment (env : String → Option String) : Settings where
  level :=
    match env "MSGC_LOG_LEVEL" with
    | some text => (Level.ofName? text).getD .info
    | none => .info
  path := env "MSGC_LOG_FILE"
  asObjects := (env "MSGC_LOG_JSON").isSome
  spans := (env "MSGC_LOG_SPANS").isSome

/-- The filter in force: the one given, if it can be read, or else the library's own events from
    the level on. -/
def filter (s : Settings) (given : Option String) : Filter :=
  match given.bind Filter.parse? with
  | some f => f
  | none => [{ target := "marksweep", least := some s.level }]

end Settings

/-! ### The log file -/

/-- The name of a log file whose path ends in none. -/
def defaultFileName : String := "marksweep.log"

/-- The directory that a list of steps leads to from a directory; `none` if that is outside. -/
def descend? : (steps : List String) → (place : List String) → Option (List String)
  | [], place => some place
  | ".." :: steps, place =>
    match place with
    | [] => none
    | place => descend? steps place.dropLast
  | step :: steps, place => descend? steps (place ++ [step])

/-- Where the log file of a path lies below the working directory, if it does. -/
def filePlace? (path : String) : Option String :=
  let steps := (path.splitOn "/").filter fun step => !step.isEmpty && step != "."
  if steps.isEmpty then some defaultFileName
  else if path.startsWith "/" then none
  else do
    let name := steps.getLast?.getD ".."
    let place ← descend? steps.dropLast []
    return "/".intercalate (place ++ [if name = ".." then defaultFileName else name])

end ArenaHeap.Log
