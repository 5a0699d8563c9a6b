import ArenaHeap.Heap.Chain
import ArenaHeap.Log.Event
import ArenaHeap.ProcessHeap

namespace ArenaHeap.Log

/-!
# Which events an operation reports

The operations of a heap answer with an account of what they did. The functions here read the
events off such an account, in the order in which things happened.
-/

/-- The events of making an arena of `bytes` bytes. -/
def ofArena (bytes : Nat) : List Event := [.arenaAllocated bytes]

/-- The events of placing a heap. -/
def ofLayout (L : Layout) : List Event := [.heapInitialized L.reserved L.bitmap L.heap]

/-- The events of giving back an arena of `length` words. -/
def ofRelease (length : Nat) : List Event := [.arenaReleased (length * Word.bytes)]

/-- The events of a collection. -/
def ofCollection (c : Collection) : List Event :=
  c.traces.map .rootTraced ++
    match c.outcome with
    | .ok r =>
      [.markCompleted c.marked, .sweepCompleted r.reclaimed r.freeWords,
        .collectionCompleted r.reclaimed r.live]
    | .error _ => []

/-- The events of handing out blocks without collecting. -/
def ofGrants (gs : List Grant) : List Event := gs.map .blockAllocated

/-- The events of a request for a block. -/
def ofAllocation (tag : Tag) (size : Nat) (a : Allocation) : List Event :=
  (match a.collection with
    | some c => .listExhausted tag size :: .collectionStarted size :: ofCollection c
    | none => []) ++
  match a.outcome with
  | .ok (.ok g) => ofGrants [g]
  | _ => []

/-- The events of making the arena of the process-wide heap. -/
def ofSetup (bytes : Nat) : Except HeapError Unit → List Event
  | .ok () => ofArena bytes ++ [.processArenaReady bytes]
  | .error _ => []

/-- The events of placing the process-wide heap, which led to the state `p`. -/
def ofHeapStart (p : ProcessHeap) : Except HeapError Unit → List Event
  | .ok () =>
    match p.phase with
    | .ready (L := L) _ => ofLayout L
    | _ => []
  | .error _ => []

/-- The events of cleaning up the process-wide heap. -/
def ofCleanup (p : ProcessHeap) : List Event :=
  (match p.length? with
    | some length => ofRelease length
    | none => []) ++ [.processHeapCleared]

/-- The events of an error that ends the process. -/
def ofAbort : HeapError → List Event
  | .outOfMemory requested freeWords => [.outOfMemory requested freeWords]
  | e => [.fatal e]

end ArenaHeap.Log
