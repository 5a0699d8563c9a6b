import ArenaHeap.Heap.Block
import ArenaHeap.Heap.FreeList

namespace ArenaHeap

/-!
# Chains of blocks

A chain is built by allocating blocks without collecting, each of which refers to the one before
in its first payload word. Chains are as deep as the heap allows, so they are what a collector
with a work-list is to be tried on.
-/

variable {L : Layout}

/-- What the building of a chain came to. -/
structure Chain where
  /-- The blocks handed out, in order. -/
  grants : Array Grant := #[]
  /-- The fault that stopped the building, if one did. -/
  fault : Option Fault := none

namespace Chain

/-- The address of the last block. -/
def last? (c : Chain) : Option VAddr := c.grants.back?.map (·.vaddr)

end Chain

namespace HeapM

/-- Fills the payload of a block of a chain with 1 and puts the address of the block before into
    its first word; the first block of a chain keeps the 1 there. -/
def fillLink (previous : Option VAddr) (g : Grant) : HeapM L Unit := do
  let _ ← fill g.pointer 1
  unless ← store g.pointer 0 (previous.getD 1) do
    throw .wordOutside

end HeapM

/-- Adds up to `count` blocks to a chain, as long as there are free ones. -/
def Heap.extendChain (tag : Tag) (size : Nat) : Nat → Chain → Heap L → Chain × Heap L
  | 0, c, h => (c, h)
  | count + 1, c, h =>
    match HeapM.tryAllocate tag size h with
    | (.error fault, h) => ({ c with fault := some fault }, h)
    | (.ok none, h) => (c, h)
    | (.ok (some g), h) =>
      let previous := c.last?
      let c := { c with grants := c.grants.push g }
      match HeapM.fillLink previous g h with
      | (.error fault, h) => ({ c with fault := some fault }, h)
      | (.ok (), h) => h.extendChain tag size count c

end ArenaHeap
