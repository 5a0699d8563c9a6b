import ArenaHeap.Collect.Mark
import ArenaHeap.Collect.Roots
import ArenaHeap.Collect.Sweep
import ArenaHeap.Heap.FreeList
import ArenaHeap.Heap.Walk
import ArenaHeap.HeapError

namespace ArenaHeap

/-!
# Collections and allocation

A collection marks from every root that is set, one after the other, and then sweeps. A request
is served from the free blocks; if none is large enough, a collection runs and the request is
tried once more.

Both answer with an account of what they did, which is complete also when a fault stopped them:
a root outside the heap interrupts marking, and then neither the sweep nor the counters follow.
-/

variable {L : Layout}

/-- What marking from one root came to. -/
structure RootTrace where
  /-- The address that the root had. -/
  root : VAddr
  /-- Blocks that were visited. -/
  marked : Nat
deriving DecidableEq, Repr

/-- The account of a collection. -/
structure Collection where
  /-- The roots marked from, up to a fault. -/
  traces : List RootTrace
  /-- The sweep that followed, or the fault. -/
  outcome : Except Fault SweepReport

namespace Collection

/-- The blocks visited from all roots. -/
def marked (c : Collection) : Nat := c.traces.foldr (fun t n => t.marked + n) 0

end Collection

namespace Heap

/-- Marks from one root after the other, up to a fault. -/
def markAll (h : Heap L) : List VAddr → List RootTrace × Except Fault Unit × Heap L
  | [] => ([], .ok (), h)
  | root :: roots =>
    match HeapM.mark root h with
    | (.error fault, h) => ([], .error fault, h)
    | (.ok marked, h) =>
      let (traces, outcome, h) := h.markAll roots
      (⟨root, marked⟩ :: traces, outcome, h)

/-- Counts a completed collection. -/
def countCollection (h : Heap L) (marked reclaimed : Nat) : Heap L :=
  { h with counters := { h.counters with
      collections := h.counters.collections + 1
      marked := h.counters.marked + marked
      reclaimed := h.counters.reclaimed + reclaimed } }

/-- Counts a request refused for want of memory. -/
def countFailure (h : Heap L) : Heap L :=
  { h with counters := { h.counters with failures := h.counters.failures + 1 } }

/-- Keeps what can be reached from the roots and makes all else free space. -/
def collect (h : Heap L) (roots : Roots) : Collection × Heap L :=
  match h.markAll roots.candidates with
  | (traces, .error fault, h) => (⟨traces, .error fault⟩, h)
  | (traces, .ok (), h) =>
    match HeapM.sweep h with
    | (.error fault, h) => (⟨traces, .error fault⟩, h)
    | (.ok report, h) =>
      let c : Collection := ⟨traces, .ok report⟩
      (c, h.countCollection c.marked report.reclaimed)

end Heap

/-- The account of a request for a block. -/
structure Allocation where
  /-- The collection that the request led to. -/
  collection : Option Collection
  /-- The block handed out, the refusal, or the fault. -/
  outcome : Except Fault (Except HeapError Grant)

namespace Heap

/-- The second attempt at a request, after a collection. -/
def retry (h : Heap L) (tag : Tag) (size : Nat) :
    Except Fault (Except HeapError Grant) × Heap L :=
  match HeapM.tryAllocate tag size h with
  | (.error fault, h) => (.error fault, h)
  | (.ok (some g), h) => (.ok (.ok g), h)
  | (.ok none, h) =>
    let h := h.countFailure
    match h.usage with
    | .error fault => (.error fault, h)
    | .ok usage => (.ok (.error (.outOfMemory size usage.freeWords)), h)

/-- Hands out a block of at least `size` words, collecting first if no free block is large
    enough. -/
def allocate (h : Heap L) (tag : Tag) (size : Nat) (roots : Roots) : Allocation × Heap L :=
  if tag = Tag.free then (⟨none, .ok (.error (.reservedTag tag))⟩, h)
  else
    match HeapM.tryAllocate tag size h with
    | (.error fault, h) => (⟨none, .error fault⟩, h)
    | (.ok (some g), h) => (⟨none, .ok (.ok g)⟩, h)
    | (.ok none, h) =>
      match h.collect roots with
      | (⟨traces, .error fault⟩, h) => (⟨some ⟨traces, .error fault⟩, .error fault⟩, h)
      | (c, h) =>
        let (outcome, h) := h.retry tag size
        (⟨some c, outcome⟩, h)

end Heap

end ArenaHeap
