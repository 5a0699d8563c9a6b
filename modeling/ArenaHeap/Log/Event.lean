import ArenaHeap.Collect.Collection
import ArenaHeap.Log.Level
import ArenaHeap.Text.Blank

namespace ArenaHeap.Log

/-!
# Events

What the library reports about its work. An event has a level, the part of the library it comes
from, a message and named fields; `Event.line` is its form in a text log. Two measurements that
differ from run to run belong to an event as well and can be asked for, but are not written.
-/

/-- Something worth reporting. -/
inductive Event where
  | arenaAllocated (bytes : Nat)
  | arenaReleased (bytes : Nat)
  | heapInitialized (reserved bitmap heap : Nat)
  | blockAllocated (grant : Grant)
  | listExhausted (tag : Tag) (size : Nat)
  | collectionStarted (requested : Nat)
  | rootTraced (trace : RootTrace)
  | markCompleted (marked : Nat)
  | sweepCompleted (reclaimed freeWords : Nat)
  | collectionCompleted (reclaimed live : Nat)
  | processArenaReady (bytes : Nat)
  | processHeapCleared
  | outOfMemory (requested freeWords : Nat)
  | fatal (error : HeapError)
deriving DecidableEq, Repr

/-- The value of a field. -/
inductive FieldValue where
  | number (n : Nat)
  /-- Text that stands in quotes in a text log. -/
  | quoted (text : String)
  /-- Text that stands as it is in a text log. -/
  | plain (text : String)
deriving DecidableEq, Repr

namespace FieldValue

/-- The value in a text log. -/
def text : FieldValue → String
  | number n => toString n
  | quoted text => "\"" ++ text ++ "\""
  | plain text => text

end FieldValue

namespace Event

/-- How much an event matters. -/
def level : Event → Level
  | blockAllocated _ | rootTraced _ => .trace
  | arenaAllocated _ | arenaReleased _ | listExhausted _ _ | markCompleted _
  | sweepCompleted _ _ | processHeapCleared => .debug
  | heapInitialized _ _ _ | collectionStarted _ | collectionCompleted _ _
  | processArenaReady _ => .info
  | outOfMemory _ _ | fatal _ => .error

/-- The part of the library that reports an event. -/
def target : Event → String
  | arenaAllocated _ | arenaReleased _ => "marksweep::allocator::arena"
  | heapInitialized _ _ _ => "marksweep::heap"
  | listExhausted _ _ => "marksweep::gc"
  | rootTraced _ => "marksweep::gc::mark"
  | processArenaReady _ | processHeapCleared => "marksweep::global"
  | fatal _ => "marksweep::error"
  | blockAllocated _ | collectionStarted _ | markCompleted _ | sweepCompleted _ _
  | collectionCompleted _ _ | outOfMemory _ _ => "marksweep::logging"

/-- What an event says. -/
def message : Event → String
  | arenaAllocated _ => "Arena allocated"
  | arenaReleased _ => "Arena released"
  | heapInitialized _ _ _ => "Heap initialized"
  | blockAllocated _ => "Block allocated"
  | listExhausted _ _ => "Free list exhausted, collecting"
  | collectionStarted _ => "Starting garbage collection cycle"
  | rootTraced _ => "Root traced"
  | markCompleted _ => "GC mark phase complete"
  | sweepCompleted _ _ => "GC sweep phase complete"
  | collectionCompleted _ _ => "Garbage collection cycle complete"
  | processArenaReady _ => "Global heap arena set up"
  | processHeapCleared => "Global heap cleaned up"
  | outOfMemory _ _ => "Cannot allocate memory, even after GC"
  | fatal _ => "Fatal heap error"

/-- The fields of an event in the order in which they are written. -/
def fields : Event → List (String × FieldValue)
  | arenaAllocated bytes => [("bytes", .number bytes)]
  | arenaReleased bytes => [("bytes", .number bytes)]
  | heapInitialized reserved bitmap heap =>
    [("reserved_words", .number reserved), ("bitmap_words", .number bitmap),
      ("heap_words", .number heap)]
  | blockAllocated g =>
    [("event", .quoted "allocation"), ("tag", .number g.tag.toNat),
      ("size_words", .number g.size), ("vaddr", .number g.vaddr.toNat)]
  | listExhausted tag size => [("tag", .number tag.toNat), ("size", .number size)]
  | collectionStarted requested =>
    [("event", .quoted "gc_start"), ("requested_words", .number requested)]
  | rootTraced t => [("root", .number t.root.toNat), ("marked", .number t.marked)]
  | markCompleted marked => [("event", .quoted "gc_mark"), ("blocks_marked", .number marked)]
  | sweepCompleted reclaimed freeWords =>
    [("event", .quoted "gc_sweep"), ("blocks_reclaimed", .number reclaimed),
      ("free_words", .number freeWords)]
  | collectionCompleted reclaimed live =>
    [("event", .quoted "gc_complete"), ("blocks_reclaimed", .number reclaimed),
      ("live_blocks", .number live)]
  | processArenaReady bytes => [("bytes", .number bytes)]
  | processHeapCleared => []
  | outOfMemory requested freeWords =>
    [("event", .quoted "out_of_memory"), ("requested_words", .number requested),
      ("free_words", .number freeWords)]
  | fatal e => [("event", .quoted "fatal"), ("error", .plain e.message)]

/-- The names of the fields of an event that are not written. -/
def unwritten : Event → List String
  | arenaAllocated _ => ["base"]
  | collectionCompleted _ _ => ["duration_us"]
  | _ => []

/-- The names of all that an event carries. Its message is a field too. -/
def fieldNames (e : Event) : List String :=
  "message" :: e.fields.map (·.1) ++ e.unwritten

/-- An event as a line of a text log. White space within it is reduced to single spaces, also
    within its fields, so that each event has one line. -/
def line (e : Event) : String :=
  let fields := e.fields.map fun (name, value) => s!" {name}={value.text}"
  Text.squeeze s!"{e.level.name} {e.target}: {e.message}{String.join fields}"

end Event

end ArenaHeap.Log
