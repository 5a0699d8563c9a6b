import ArenaHeap.Collect.Collection
import ArenaHeap.Heap.Block

namespace ArenaHeap

/-!
# The process-wide heap

One heap for a whole process passes through three phases: there is nothing, there is an arena,
there is a heap in it. `ProcessHeap.setup` and `ProcessHeap.setHeapStart` lead from one to the
next and `ProcessHeap.cleanup` back to the first. A request that the phase does not allow, or
that is refused, changes nothing.

The roots that collections read are registered once and kept over the phases until the cleanup.
-/

/-- How far the process-wide heap has been set up. -/
inductive Phase where
  /-- There is nothing. -/
  | uninitialized
  /-- There is an arena without a heap. -/
  | arenaOnly (arena : Arena)
  /-- There is a heap. -/
  | ready {L : Layout} (heap : Heap L)

/-- The process-wide heap. -/
structure ProcessHeap where
  /-- How far it has been set up. -/
  phase : Phase := .uninitialized
  /-- The roots registered, if any were. -/
  roots : Option Roots := none

namespace ProcessHeap

/-- How memory is managed, in words for the embedder. -/
def strategy : String := "mark & sweep garbage collector"

/-- The process-wide heap before anything was done, and after a cleanup. -/
def empty : ProcessHeap := {}

/-- The number of words of the arena, if there is one. -/
def length? (p : ProcessHeap) : Option Nat :=
  match p.phase with
  | .uninitialized => none
  | .arenaOnly arena => some arena.length
  | .ready (L := L) _ => some L.size

/-- Makes the arena. -/
def setup (p : ProcessHeap) (bytes : Nat) : Except HeapError Unit × ProcessHeap :=
  match p.phase with
  | .uninitialized =>
    match Arena.new bytes with
    | .ok arena => (.ok (), { p with phase := .arenaOnly arena })
    | .error e => (.error e, p)
  | _ => (.error .alreadyInitialized, p)

/-- Gives everything back. -/
def cleanup (_ : ProcessHeap) : ProcessHeap := empty

/-- The arena's base, which is also the value of an unset root. -/
def start (p : ProcessHeap) : Except HeapError Pointer :=
  match p.length? with
  | some _ => .ok .base
  | none => .error .notInitialized

/-- One past the arena's last word. -/
def limit (p : ProcessHeap) : Except HeapError Pointer :=
  match p.length? with
  | some length => .ok (.ofIndex length)
  | none => .error .notInitialized

/-- Places the heap in the arena. The phase is taken out for that, so each way out of here has to
    say which one it leaves behind. -/
def setHeapStart (p : ProcessHeap) (start : Pointer) : Except HeapError Unit × ProcessHeap :=
  let taken := p.phase
  let p := { p with phase := .uninitialized }
  match taken with
  | .uninitialized => (.error .notInitialized, p)
  | .ready heap => (.error .alreadyInitialized, { p with phase := .ready heap })
  | .arenaOnly arena =>
    -- The start is checked first, so that a start that is refused keeps the arena.
    match Layout.place arena.length arena.addressable start with
    | .error e => (.error e, { p with phase := .arenaOnly arena })
    | .ok _ =>
      match arena.intoHeap start with
      | .ok ⟨_, heap⟩ => (.ok (), { p with phase := .ready heap })
      | .error e => (.error e, p)

/-- Registers the roots that collections read. -/
def setRoots (p : ProcessHeap) (roots : Roots) : ProcessHeap := { p with roots := some roots }

/-- Hands out a block, collecting from the registered roots if need be, or from none. -/
def allocate (p : ProcessHeap) (tag : Tag) (size : Nat) : Allocation × ProcessHeap :=
  match p with
  | { phase := .ready heap, roots } =>
    let (account, heap) := heap.allocate tag size (roots.getD .unset)
    (account, { phase := .ready heap, roots })
  | p => (⟨none, .ok (.error .notInitialized)⟩, p)

/-- Does something with the heap, if there is one. -/
@[inline] def withHeap {α : Type} (p : ProcessHeap)
    (act : {L : Layout} → Heap L → α × Heap L) : Except HeapError α × ProcessHeap :=
  match p with
  | { phase := .ready heap, roots } =>
    let (result, heap) := act heap
    (.ok result, { phase := .ready heap, roots })
  | p => (.error .notInitialized, p)

/-- The payload size of a block. -/
def blockSize (p : ProcessHeap) (block : Pointer) : Except HeapError (Except Fault Nat) :=
  match p.phase with
  | .ready heap => .ok (heap.blockSize block)
  | _ => .error .notInitialized

/-- The tag of a block. -/
def blockTag (p : ProcessHeap) (block : Pointer) : Except HeapError (Except Fault Tag) :=
  match p.phase with
  | .ready heap => .ok (heap.blockTag block)
  | _ => .error .notInitialized

end ProcessHeap

end ArenaHeap
