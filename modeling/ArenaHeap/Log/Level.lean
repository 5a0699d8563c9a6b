namespace ArenaHeap.Log

/-!
# Levels

How much an event matters. A filter admits the events of a level and of all that matter more.
-/

/-- The levels from the least to the most important. -/
inductive Level where
  | trace
  | debug
  | info
  | warn
  | error
deriving DecidableEq, Repr, Inhabited

namespace Level

/-- The name of a level in log lines. -/
def name : Level → String
  | trace => "TRACE"
  | debug => "DEBUG"
  | info => "INFO"
  | warn => "WARN"
  | error => "ERROR"

/-- How many levels matter at least as much. -/
def breadth : Level → Nat
  | error => 1
  | warn => 2
  | info => 3
  | debug => 4
  | trace => 5

/-- All levels. -/
def all : List Level := [trace, debug, info, warn, error]

/-- The level of a name, in capital or small letters. -/
def ofName? (text : String) : Option Level :=
  all.find? fun level => level.name == text.toUpper

end Level

end ArenaHeap.Log
