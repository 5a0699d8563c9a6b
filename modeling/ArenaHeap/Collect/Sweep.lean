import ArenaHeap.Heap.Bitmap

namespace ArenaHeap

/-!
# Sweeping

One pass over the blocks in the order of their addresses. A block that was visited and is not
marked as free survives and gets its bit back. Every other block becomes free space: it is
merged into the free block before it if the two touch, and otherwise linked behind that one. The
list of free blocks comes out in the order of addresses, with no two neighbours on it.
-/

variable {L : Layout}

/-- What a sweep found and left. -/
structure SweepReport where
  /-- Blocks that survived. -/
  live : Nat := 0
  /-- Allocated blocks that became free space. -/
  reclaimed : Nat := 0
  /-- Free blocks afterwards. -/
  freeBlocks : Nat := 0
  /-- Payload words of those. -/
  freeWords : Nat := 0
deriving DecidableEq, Repr

namespace SweepReport

/-- Counts a survivor. -/
def survived (r : SweepReport) : SweepReport := { r with live := r.live + 1 }

/-- Counts an allocated block that becomes free space. -/
def reclaim (r : SweepReport) : SweepReport := { r with reclaimed := r.reclaimed + 1 }

/-- Counts a free block of its own. -/
def separate (r : SweepReport) (size : Nat) : SweepReport :=
  { r with freeBlocks := r.freeBlocks + 1, freeWords := r.freeWords + size }

/-- Counts a block that a free block absorbs, header and all. -/
def absorb (r : SweepReport) (size : Nat) : SweepReport :=
  { r with freeWords := r.freeWords + size + Header.words }

end SweepReport

namespace HeapM

/-- Adds a block of `size` words to the free space whose last block is `last`. The result is the
    last free block afterwards. -/
def release (block size : Nat) (last : Option Nat) (r : SweepReport) :
    HeapM L (Option Nat × SweepReport) := do
  clearBit block
  writeHeader block Tag.free size
  match last with
  | none =>
    setHead (VAddr.ofIndex block)
    return (some block, r.separate size)
  | some free =>
    let before ← ask (·.sizeAt free)
    if free + before + Header.words = block then
      -- The two touch, so the header of the second becomes payload of the first.
      writeHeader free Tag.free (before + size + Header.words)
      return (some free, r.absorb size)
    else
      write free (VAddr.ofIndex block)
      return (some block, r.separate size)

/-- Sweeps one block of `size` words. -/
def sweepBlock (block size : Nat) (last : Option Nat) (r : SweepReport) :
    HeapM L (Option Nat × SweepReport) := do
  let bit ← ask (·.bitAt block)
  let tag ← ask (·.tagAt block)
  if !bit && tag != Tag.free then
    setBit block
    return (last, r.survived)
  else
    release block size last (if tag = Tag.free then r else r.reclaim)

/-- Sweeps the blocks from one on to the heap's end; `last` is the last free block in front. -/
def sweepFrom (block : Nat) (last : Option Nat) (r : SweepReport) :
    HeapM L (Option Nat × SweepReport) := do
  if block < L.heapEnd then
    let size ← ask (·.sizeAt block)
    let (last, r) ← sweepBlock block size last r
    sweepFrom (block + size + Header.words) last r
  else
    return (last, r)
termination_by L.heapEnd - block
decreasing_by simp only [Header.words]; omega

/-- Sweeps the heap. -/
def sweep : HeapM L SweepReport := do
  let (last, r) ← sweepFrom L.firstBlock none {}
  relink last VAddr.null
  return r

end HeapM

end ArenaHeap
