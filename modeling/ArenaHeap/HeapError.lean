import ArenaHeap.Header

namespace ArenaHeap

/-!
# Refusals

The errors a caller has to expect: sizes that make no heap, a reserved tag, a heap that is full
even after a collection, a process-wide heap in the wrong phase, and a configuration that cannot
be read. `HeapError.message` has the wording of all of them.
-/

/-- Why a request was refused. -/
inductive HeapError where
  /-- An arena cannot have this many bytes. -/
  | invalidArenaSize (bytes : Nat)
  /-- The memory for an arena could not be had. -/
  | arenaAllocation (bytes : Nat)
  /-- A heap cannot start at this distance from the arena's base. -/
  | invalidHeapStart (offset : Int)
  /-- The heap would have too few words for one block. -/
  | heapTooSmall (words : Nat)
  /-- The heap's first block would not fit the size field of its header. -/
  | heapTooLarge (words : Nat)
  /-- The tag is the one of free blocks. -/
  | reservedTag (tag : Tag)
  /-- No block is large enough, even after a collection. -/
  | outOfMemory (requested freeWords : Nat)
  /-- The process-wide heap has not been set up. -/
  | notInitialized
  /-- The process-wide heap has been set up before. -/
  | alreadyInitialized
  /-- The configuration could not be read. -/
  | config (text : String)
deriving DecidableEq, Repr, Inhabited

namespace HeapError

/-- The text of an error. -/
def message : HeapError → String
  | invalidArenaSize bytes => s!"invalid arena size: {bytes} bytes"
  | arenaAllocation bytes => s!"cannot allocate {bytes} bytes of memory"
  | invalidHeapStart offset => s!"invalid heap start at arena offset {offset}"
  | heapTooSmall words => s!"heap of {words} words cannot hold a single block"
  | heapTooLarge words => s!"heap of {words} words exceeds the block header size field"
  | reservedTag tag => s!"tag {tag} is reserved for free blocks"
  | outOfMemory requested freeWords =>
    s!"cannot allocate {requested} words of memory, even after GC ({freeWords} words free)"
  | notInitialized => "heap is not initialized"
  | alreadyInitialized => "heap is already initialized"
  | config text => s!"configuration error: {text}"

/-- An error that the embedding process cannot survive: memory has run out. -/
def isFatal : HeapError → Bool
  | outOfMemory _ _ => true
  | arenaAllocation _ => true
  | _ => false

end HeapError

end ArenaHeap
