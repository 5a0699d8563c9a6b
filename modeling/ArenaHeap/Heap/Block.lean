import ArenaHeap.Heap.Bitmap

namespace ArenaHeap

/-!
# Blocks by pointer

Callers hold a block as a pointer to its payload. Any pointer to a whole word strictly inside
the heap passes for a block; what its header says is taken as it stands. Payload words and the
reserved words are the caller's to read and write.
-/

variable {L : Layout}

namespace Layout

/-- The index of the payload that a pointer names. -/
def blockIndex (L : Layout) (p : Pointer) : Except Fault Nat :=
  match p.index? L.size with
  | some i => if L.heapStart < i ∧ i < L.heapEnd then .ok i else .error .notABlock
  | none => .error .notABlock

/-- The pointer to the word at a virtual address of the heap. -/
def blockAt (L : Layout) (v : VAddr) : Option Pointer :=
  if L.Spans v ∧ v.Aligned then some (.ofIndex v.index) else none

end Layout

namespace Heap

/-- Where the payload of a block starts and how many words it has. -/
def payloadRange (h : Heap L) (p : Pointer) : Except Fault (Nat × Nat) := do
  let i ← L.blockIndex p
  let n ← h.sizeAt i
  if i + n ≤ L.size then return (i, n) else throw .wordOutside

/-- The payload size of a block. -/
def blockSize (h : Heap L) (p : Pointer) : Except Fault Nat := do
  h.sizeAt (← L.blockIndex p)

/-- The tag of a block. -/
def blockTag (h : Heap L) (p : Pointer) : Except Fault Tag := do
  h.tagAt (← L.blockIndex p)

/-- The payload words of a block. -/
def payload (h : Heap L) (p : Pointer) : Except Fault (Array Word) := do
  let (i, n) ← h.payloadRange p
  h.slice i n

/-- The reserved words. -/
def reserved (h : Heap L) : Array Word := h.words.toArray.extract 0 L.reserved

/-- The heap with `n` words from an index on overwritten. -/
def fillFrom (h : Heap L) (w : Word) (i : Nat) : Nat → Heap L
  | 0 => h
  | n + 1 => (h.put i w).fillFrom w (i + 1) n

end Heap

namespace HeapM

/-- Overwrites one payload word of a block; `false` if the payload is not that long. -/
def store (p : Pointer) (k : Nat) (w : Word) : HeapM L Bool := do
  let (i, n) ← ask (·.payloadRange p)
  if k < n then
    change (·.put (i + k) w)
    return true
  else
    return false

/-- Overwrites all payload words of a block and returns their number. -/
def fill (p : Pointer) (w : Word) : HeapM L Nat := do
  let (i, n) ← ask (·.payloadRange p)
  change (·.fillFrom w i n)
  return n

/-- Overwrites a reserved word; `false` if there are not that many. -/
def storeReserved (k : Nat) (w : Word) : HeapM L Bool := do
  if k < L.reserved then
    change (·.put k w)
    return true
  else
    return false

end HeapM

end ArenaHeap
