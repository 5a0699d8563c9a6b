import ArenaHeap.Heap.Bitmap

namespace ArenaHeap

/-!
# The block walk

The heap is a sequence of blocks, each found from the one before by its size. `Heap.blocks`
walks it to the heap's end, and `Heap.usage` adds up what the walk meets.
-/

variable {L : Layout}

/-- A block as a walk sees it. -/
structure BlockInfo where
  /-- The index of the first payload word. -/
  index : Nat
  /-- The tag in the header. -/
  tag : Tag
  /-- The payload size in the header. -/
  size : Nat
  /-- The bit of the first payload word. -/
  bit : Bool
deriving DecidableEq, Repr

namespace BlockInfo

/-- The virtual address of the payload. -/
def vaddr (b : BlockInfo) : VAddr := .ofIndex b.index

/-- Whether the header marks the block as free. -/
def isFree (b : BlockInfo) : Bool := b.tag == Tag.free

/-- The index of the next block's payload. -/
def next (b : BlockInfo) : Nat := b.index + b.size + Header.words

end BlockInfo

/-- How the words of an arena are used. -/
structure Usage where
  /-- Words in front of the bitmap. -/
  reservedWords : Nat
  /-- Words of the bitmap. -/
  bitmapWords : Nat
  /-- Words of the heap. -/
  heapWords : Nat
  /-- Blocks whose header marks them as free. -/
  freeBlocks : Nat := 0
  /-- Payload words of those. -/
  freeWords : Nat := 0
  /-- All other blocks. -/
  usedBlocks : Nat := 0
  /-- Payload words of those. -/
  usedWords : Nat := 0
deriving DecidableEq, Repr

namespace Usage

/-- Headers and payloads of all blocks together. -/
def blockWords (u : Usage) : Nat :=
  u.freeWords + u.usedWords + (u.freeBlocks + u.usedBlocks) * Header.words

/-- Counts one more block. -/
def add (u : Usage) (b : BlockInfo) : Usage :=
  if b.isFree then
    { u with freeBlocks := u.freeBlocks + 1, freeWords := u.freeWords + b.size }
  else
    { u with usedBlocks := u.usedBlocks + 1, usedWords := u.usedWords + b.size }

end Usage

namespace Heap

/-- The block whose payload starts at an index. -/
def describe (h : Heap L) (index : Nat) : Except Fault BlockInfo := do
  let size ← h.sizeAt index
  let tag ← h.tagAt index
  let bit ← h.bitAt index
  return { index, tag, size, bit }

/-- The blocks found before, and those from an index on to the heap's end. -/
def walkFrom (h : Heap L) (index : Nat) (found : Array BlockInfo) :
    Except Fault (Array BlockInfo) :=
  if index < L.heapEnd then
    match h.describe index with
    | .ok b => h.walkFrom (index + b.size + Header.words) (found.push b)
    | .error fault => .error fault
  else
    .ok found
termination_by L.heapEnd - index
decreasing_by simp only [Header.words]; omega

/-- All blocks in the order of their addresses. -/
def blocks (h : Heap L) : Except Fault (Array BlockInfo) := h.walkFrom L.firstBlock #[]

/-- How the words of the arena are used. -/
def usage (h : Heap L) : Except Fault Usage := do
  return (← h.blocks).foldl Usage.add
    { reservedWords := L.reserved, bitmapWords := L.bitmap, heapWords := L.heap }

end Heap

end ArenaHeap
