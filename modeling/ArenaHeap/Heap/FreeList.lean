import ArenaHeap.Heap.Bitmap

namespace ArenaHeap

/-!
# The list of free blocks

Each free block's first payload word is the address of the next one, and address 0 ends the
list. A request takes the first block on the list that is large enough: whole if the rest could
not be a block, otherwise the lower part of it, and the rest takes its place on the list.

A walk along the links meets a block twice only if it never ends, so it has no need to look at
more blocks than there are words; `Fault.endless` is the answer after that many.
-/

variable {L : Layout}

/-- A block found for a request, with the block before it on the list. -/
structure Fit where
  /-- The block in front; none if the found block is the first. -/
  pred : Option Nat
  /-- The block found. -/
  block : Nat
deriving DecidableEq, Repr

/-- A block that was handed out. -/
structure Grant where
  /-- The tag asked for. -/
  tag : Tag
  /-- The index of the first payload word. -/
  block : Nat
  /-- The payload size, which may exceed the request by a word. -/
  size : Nat
deriving DecidableEq, Repr

namespace Grant

/-- The virtual address of the payload. -/
def vaddr (g : Grant) : VAddr := .ofIndex g.block

/-- The pointer to the payload. -/
def pointer (g : Grant) : Pointer := .ofIndex g.block

end Grant

namespace Heap

/-- The first block of at least `size` words on the list that goes on at `v` after `pred`;
    `steps` bounds the number of blocks looked at. -/
def searchFrom (h : Heap L) (size : Nat) (pred : Option Nat) (v : VAddr) (steps : Nat) :
    Except Fault (Option Fit) :=
  if v = VAddr.null then .ok none
  else
    match steps with
    | 0 => .error .endless
    | steps + 1 =>
      match h.sizeAt v.index with
      | .error fault => .error fault
      | .ok found =>
        if size ≤ found then .ok (some ⟨pred, v.index⟩)
        else
          match h.link v.index with
          | .error fault => .error fault
          | .ok next => h.searchFrom size (some v.index) next steps

/-- The first free block of at least `size` words. -/
def search (h : Heap L) (size : Nat) : Except Fault (Option Fit) :=
  h.searchFrom size none (h.heads.get commonList) (L.size + 1)

/-- The addresses seen before, and those on the list that goes on at `v`. -/
def linksFrom (h : Heap L) (v : VAddr) (seen : Array VAddr) (steps : Nat) :
    Except Fault (Array VAddr) :=
  if v = VAddr.null then .ok seen
  else
    match steps with
    | 0 => .error .endless
    | steps + 1 =>
      match h.link v.index with
      | .error fault => .error fault
      | .ok next => h.linksFrom next (seen.push v) steps

/-- The addresses on a list of free blocks, as the head and the links have them. -/
def freeList (h : Heap L) (number : Nat) : Except Fault (Array VAddr) :=
  if hn : number < listCount then h.linksFrom h.heads[number] #[] (L.size + 1)
  else .error (.noSuchList number)

end Heap

namespace HeapM

/-- Takes a found block off the list for a request of `size` words, and leaves on the list what
    the request does not need if that can be a block. -/
def award (tag : Tag) (size : Nat) (fit : Fit) : HeapM L Unit := do
  let next ← ask (·.link fit.block)
  let found ← ask (·.sizeAt fit.block)
  if found < size + Header.words + Header.minSize then
    -- One word more than requested could not be a block of its own.
    relink fit.pred next
    writeHeader fit.block tag found
  else
    -- The rest is written before the list leads to it.
    let rest := fit.block + size + Header.words
    writeHeader fit.block tag size
    writeHeader rest Tag.free (found - size - Header.words)
    write rest next
    relink fit.pred (VAddr.ofIndex rest)

/-- Hands out a block without collecting, or none if no free block is large enough. -/
def tryAllocate (tag : Tag) (size : Nat) : HeapM L (Option Grant) := do
  match ← ask (·.search (requestSize size)) with
  | none => return none
  | some fit =>
    award tag (requestSize size) fit
    setBit fit.block
    change fun h =>
      { h with counters := { h.counters with allocations := h.counters.allocations + 1 } }
    return some { tag, block := fit.block, size := ← ask (·.sizeAt fit.block) }

end HeapM

end ArenaHeap
