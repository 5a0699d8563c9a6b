import ArenaHeap.Proofs.Accounting
import ArenaHeap.Proofs.Noninterference

namespace ArenaHeap

/-!
# Operations that check their numbers

The operations on a heap count in natural numbers. A machine counts in 64 bits, and a header or an
address has fewer bits still. Here the operations are written once more, with a check wherever a
number comes up: a sum has to fit 64 bits, a difference must not go below zero, a size has to be
read back from its header and an index from its address. Where a check fails, the operation stops,
as it does at a fault.

Sums and differences are in the order in which the operations form them, so a check comes before
the first use of its number. Reading and writing off the arena or off the bitmap, and the header of
a block at index zero, are faults of the operations already. Only the counters are as they were:
they grow with the length of a run.

* `Checked.sum`, `Checked.difference`, `Checked.header`, `Checked.address` — the checks.
* `Checked.intoHeap`, `Checked.perform`, `Checked.blocks`, `Checked.usage` — the operations.
* `Checked.run` — some steps, one after the other.
-/

variable {L : Layout}

/-- Why a checked operation stopped. -/
inductive Stop where
  /-- The operation itself met a fault. -/
  | fault (f : Fault)
  /-- A sum does not fit 64 bits. -/
  | overflow
  /-- A difference is below zero. -/
  | underflow
  /-- A header would not give back what is put into it. -/
  | unrecordable
  /-- An index has no address of its own. -/
  | unaddressable
  /-- The regions found for a heap do not fill the arena, or the bitmap is too short. -/
  | misplaced
deriving DecidableEq, Repr

/-- An operation on a heap that may stop. -/
abbrev CheckedM (L : Layout) := ExceptT Stop (StateM (Heap L))

namespace Checked

/-! ### Checks -/

/-- A sum of two numbers, if it fits 64 bits. -/
def sum (a b : Nat) : Except Stop Nat :=
  if a + b < 1 <<< 64 then .ok (a + b) else .error .overflow

/-- The difference of two numbers, if it is one. -/
def difference (a b : Nat) : Except Stop Nat :=
  if b ≤ a then .ok (a - b) else .error .underflow

/-- A product of two numbers, if it fits 64 bits. -/
def product (a b : Nat) : Except Stop Nat :=
  if a * b < 1 <<< 64 then .ok (a * b) else .error .overflow

/-- The header of a block, if size and tag can be read back from it. -/
def header (tag : Tag) (size : Nat) : Except Stop Word :=
  let w := Header.ofSize tag size
  if size ≤ Header.maxSize ∧ (Header.size w).toNat = size ∧ Header.tag w = tag then .ok w
  else .error .unrecordable

/-- The address of the word at an index, if the index can be read back from it. -/
def address (i : Nat) : Except Stop VAddr :=
  let v := VAddr.ofIndex i
  if i < 1 <<< 30 ∧ v.index = i then .ok v else .error .unaddressable

/-- What an operation looks up, with its fault as a reason to stop. -/
def plain {α : Type} (r : Except Fault α) : Except Stop α := r.mapError .fault

/-- An operation that has no numbers to check. -/
def unchecked {α : Type} (m : HeapM L α) : CheckedM L α := fun h => (plain (m h).1, (m h).2)

/-- A check on the way. -/
def check {α : Type} (r : Except Stop α) : CheckedM L α := fun h => (r, h)

/-- Looks at the heap, with checks on the way. -/
def ask {α : Type} (look : Heap L → Except Stop α) : CheckedM L α := fun h => (look h, h)

/-! ### Placing a heap -/

/-- Places bitmap and heap from `start` to the end of an arena of `length` words. -/
def place (length : Nat) (h : length < 1 <<< 30) (start : Pointer) :
    Except Stop (Except HeapError { L : Layout // L.size = length }) :=
  match start.index? length with
  | none => return .error (.invalidHeapStart start.toInt)
  | some reserved => do
    let rest ← difference length reserved
    let bitmap ← sum ((← difference rest 1) / (Word.bits + 1)) 1
    let heap ← difference rest bitmap
    if hs : heap < Header.words + Header.minSize then
      return .error (.heapTooSmall heap)
    else
      let _ ← difference heap Header.words
      if hl : Header.maxSize < heap - Header.words then
        return .error (.heapTooLarge heap)
      else
        let _ ← product bitmap Word.bits
        if hp : heap ≤ bitmap * Word.bits ∧ reserved + bitmap + heap = length then
          return .ok ⟨{
            reserved, bitmap, heap
            covered := hp.1
            fits := Nat.le_of_not_lt hs
            recordable := Nat.sub_le_iff_le_add'.1 (Nat.le_of_not_lt hl)
            addressable := Nat.lt_of_le_of_lt (Nat.le_of_eq hp.2) h },
            hp.2⟩
        else
          throw .misplaced

/-- A heap with one free block, which fills it. -/
def fresh (L : Layout) (words : Vector Word L.size) : Except Stop (Heap L) := do
  let heapStart ← sum L.reserved L.bitmap
  let _ ← difference L.size heapStart
  let first ← sum heapStart Header.words
  let initial ← difference L.heap Header.words
  let head ← address first
  let _ ← address heapStart
  let _ ← address L.size
  -- The bitmap, the first header and the first link lie in the arena.
  if first < L.size then
    return {
      words := ((zeroFrom words L.reserved L.bitmap).setIfInBounds heapStart
        (← header Tag.free initial)).setIfInBounds first VAddr.null
      heads := (Vector.replicate listCount VAddr.null).set commonList head commonList.isLt
      counters := {} }
  else
    throw (.fault .wordOutside)

/-- Places a heap in an arena, from `start` to the arena's end. -/
def intoHeap (a : Arena) (start : Pointer) :
    Except Stop (Except HeapError ((L : Layout) × Heap L)) := do
  match ← place a.length a.addressable start with
  | .error e => return .error e
  | .ok placed =>
    let h ← fresh placed.val ⟨a.words, a.size_words.trans placed.property.symm⟩
    return .ok ⟨placed.val, h⟩

/-! ### Requests -/

/-- Overwrites the header of a block. -/
def writeHeader (block : Nat) (tag : Tag) (size : Nat) : CheckedM L Unit := do
  let w ← check (header tag size)
  unchecked (do HeapM.write (← HeapM.ask fun _ => Heap.headerIndex block) w)

/-- Takes a found block off the list, and leaves on it what the request does not need. -/
def award (tag : Tag) (size : Nat) (fit : Fit) : CheckedM L Unit := do
  let next ← unchecked (HeapM.ask (·.link fit.block))
  let found ← unchecked (HeapM.ask (·.sizeAt fit.block))
  let needed ← check (do sum (← sum size Header.words) Header.minSize)
  if found < needed then
    unchecked (HeapM.relink fit.pred next)
    writeHeader fit.block tag found
  else
    let rest ← check (do sum (← sum fit.block size) Header.words)
    let left ← check (do difference (← difference found size) Header.words)
    writeHeader fit.block tag size
    writeHeader rest Tag.free left
    unchecked (HeapM.write rest next)
    unchecked (HeapM.relink fit.pred (← check (address rest)))

/-- Hands out a block without collecting, or none if no free block is large enough. -/
def tryAllocate (tag : Tag) (size : Nat) : CheckedM L (Option Grant) := do
  match ← unchecked (HeapM.ask (·.search (requestSize size))) with
  | none => return none
  | some fit =>
    award tag (requestSize size) fit
    unchecked (HeapM.setBit fit.block)
    unchecked (HeapM.change Heap.countAllocation)
    let found ← unchecked (HeapM.ask (·.sizeAt fit.block))
    let _ ← check (address fit.block)
    return some { tag, block := fit.block, size := found }

/-! ### Collections -/

/-- The payload words of a block. -/
def payloadAt (h : Heap L) (block : Nat) : Except Stop (Array Word) := do
  let n ← plain (h.sizeAt block)
  let _ ← sum block n
  plain (h.slice block n)

/-- Visits all that can be reached from the pending candidates. -/
def trace (h : Heap L) (pending : List VAddr) (marked : Nat) : Except Stop Nat × Heap L :=
  match pending with
  | [] => (.ok marked, h)
  | v :: pending =>
    if v.Aligned then
      if L.InHeap v.index then
        if h.bit v.index then
          let visited := h.clearBit v.index
          match sum marked 1, payloadAt visited v.index with
          | .ok marked, .ok payload => trace visited (L.pend payload pending) marked
          | .error stop, _ => (.error stop, visited)
          | _, .error stop => (.error stop, visited)
        else
          trace h pending marked
      else
        (.error (.fault (.bitOutside v.index L.heapStart L.heapEnd)), h)
    else
      trace h pending marked
termination_by (h.bitCount, pending.length)
decreasing_by
  · exact Prod.Lex.left _ _ (h.bitCount_clearBit_lt ‹_› ‹_›)
  · exact Prod.Lex.right _ (by simp)
  · exact Prod.Lex.right _ (by simp)

/-- Visits all that can be reached from one candidate. -/
def mark (candidate : VAddr) : CheckedM L Nat := fun h => trace h [candidate] 0

/-- Marks from one root after the other, on top of `total` blocks. -/
def markAll (total : Nat) : List VAddr → CheckedM L (List RootTrace × Nat)
  | [] => return ([], total)
  | root :: roots => do
    let marked ← mark root
    let (traces, total) ← markAll (← check (sum total marked)) roots
    return (⟨root, marked⟩ :: traces, total)

/-- Counts a survivor. -/
def survived (r : SweepReport) : Except Stop SweepReport :=
  return { r with live := ← sum r.live 1 }

/-- Counts an allocated block that becomes free space. -/
def reclaim (r : SweepReport) : Except Stop SweepReport :=
  return { r with reclaimed := ← sum r.reclaimed 1 }

/-- Counts a free block of its own. -/
def separate (r : SweepReport) (size : Nat) : Except Stop SweepReport :=
  return { r with freeBlocks := ← sum r.freeBlocks 1, freeWords := ← sum r.freeWords size }

/-- Counts a block that a free block absorbs, header and all. -/
def absorb (r : SweepReport) (size : Nat) : Except Stop SweepReport :=
  return { r with freeWords := ← sum r.freeWords (← sum size Header.words) }

/-- Adds a block of `size` words to the free space whose last block is `last`. -/
def release (block size : Nat) (last : Option Nat) (r : SweepReport) :
    CheckedM L (Option Nat × SweepReport) := do
  unchecked (HeapM.clearBit block)
  writeHeader block Tag.free size
  match last with
  | none =>
    unchecked (HeapM.setHead (← check (address block)))
    return (some block, ← check (separate r size))
  | some free =>
    let before ← unchecked (HeapM.ask (·.sizeAt free))
    let stop ← check (do sum (← sum free before) Header.words)
    if stop = block then
      let merged ← check (do sum (← sum before size) Header.words)
      writeHeader free Tag.free merged
      return (some free, ← check (absorb r size))
    else
      unchecked (HeapM.write free (← check (address block)))
      return (some block, ← check (separate r size))

/-- Sweeps one block of `size` words. -/
def sweepBlock (block size : Nat) (last : Option Nat) (r : SweepReport) :
    CheckedM L (Option Nat × SweepReport) := do
  let bit ← unchecked (HeapM.ask (·.bitAt block))
  let tag ← unchecked (HeapM.ask (·.tagAt block))
  if !bit && tag != Tag.free then
    unchecked (HeapM.setBit block)
    return (last, ← check (survived r))
  else
    release block size last (← check (if tag = Tag.free then .ok r else reclaim r))

/-- Sweeps the blocks from one on to the heap's end. -/
def sweepFrom (block : Nat) (last : Option Nat) (r : SweepReport) :
    CheckedM L (Option Nat × SweepReport) := do
  if block < L.heapEnd then
    let size ← unchecked (HeapM.ask (·.sizeAt block))
    let (last, r) ← sweepBlock block size last r
    let _ ← check (do sum (← sum block size) Header.words)
    sweepFrom (block + size + Header.words) last r
  else
    return (last, r)
termination_by L.heapEnd - block
decreasing_by simp only [Header.words]; omega

/-- Sweeps the heap. -/
def sweep : CheckedM L SweepReport := do
  let (last, r) ← sweepFrom L.firstBlock none {}
  unchecked (HeapM.relink last VAddr.null)
  return r

/-- Keeps what can be reached from the roots and makes all else free space. -/
def collect (roots : Roots) : CheckedM L Collection := do
  let (traces, marked) ← markAll 0 roots.candidates
  let report ← sweep
  unchecked (HeapM.change (·.countCollection marked report.reclaimed))
  return ⟨traces, .ok report⟩

/-! ### Looking at a heap -/

/-- The blocks found before, and those from an index on to the heap's end. -/
def walkFrom (h : Heap L) (index : Nat) (found : Array BlockInfo) :
    Except Stop (Array BlockInfo) := do
  if index < L.heapEnd then
    let b ← plain (h.describe index)
    let _ ← sum (← sum index b.size) Header.words
    let _ ← address index
    walkFrom h (index + b.size + Header.words) (found.push b)
  else
    return found
termination_by L.heapEnd - index
decreasing_by simp only [Header.words]; omega

/-- All blocks in the order of their addresses. -/
def blocks (h : Heap L) : Except Stop (Array BlockInfo) := walkFrom h L.firstBlock #[]

/-- Counts one more block. -/
def add (u : Usage) (b : BlockInfo) : Except Stop Usage :=
  if b.isFree then
    return { u with freeBlocks := ← sum u.freeBlocks 1, freeWords := ← sum u.freeWords b.size }
  else
    return { u with usedBlocks := ← sum u.usedBlocks 1, usedWords := ← sum u.usedWords b.size }

/-- How the words of the arena are used. -/
def usage (h : Heap L) : Except Stop Usage := do
  let heap ← difference L.heapEnd L.heapStart
  (← blocks h).toList.foldlM add
    { reservedWords := L.reserved, bitmapWords := L.bitmap, heapWords := heap }

/-! ### Steps -/

/-- The second attempt at a request, after a collection. -/
def retry (tag : Tag) (size : Nat) : CheckedM L (Except HeapError Grant) := do
  match ← tryAllocate tag size with
  | some g => return .ok g
  | none =>
    unchecked (HeapM.change Heap.countFailure)
    let usage ← ask usage
    return .error (.outOfMemory size usage.freeWords)

/-- Hands out a block, collecting first if no free block is large enough. -/
def allocate (tag : Tag) (size : Nat) (roots : Roots) : CheckedM L Allocation := do
  if tag = Tag.free then
    return ⟨none, .ok (.error (.reservedTag tag))⟩
  match ← tryAllocate tag size with
  | some g => return ⟨none, .ok (.ok g)⟩
  | none =>
    let c ← collect roots
    return ⟨some c, .ok (← retry tag size)⟩

/-- Where the payload of a block starts and how many words it has. -/
def payloadRange (h : Heap L) (p : Pointer) : Except Stop (Nat × Nat) := do
  let i ← plain (L.blockIndex p)
  let n ← plain (h.sizeAt i)
  if (← sum i n) ≤ L.size then return (i, n) else throw (.fault .wordOutside)

/-- Overwrites one payload word of a block; `false` if the payload is not that long. -/
def store (p : Pointer) (k : Nat) (w : Word) : CheckedM L Bool := do
  let (i, n) ← ask (payloadRange · p)
  if k < n then
    let j ← check (sum i k)
    unchecked (HeapM.change (·.put j w))
    return true
  else
    return false

/-- Takes a step, and gives what it tells its caller. -/
def perform : Step → CheckedM L Step.Answer
  | .tryAllocate tag size => return .request (.ok (← tryAllocate tag size))
  | .allocate tag size roots => return .allocation (← allocate tag size roots)
  | .collect roots => return .collection (← collect roots)
  | .store block k w => return .store (.ok (← store (.ofIndex block) k w))
  | .storeReserved k w => return .store (.ok (← unchecked (HeapM.storeReserved k w)))

/-- Takes some steps, one after the other. -/
def run : List Step → CheckedM L (List Step.Answer)
  | [] => return []
  | s :: steps => return (← perform s) :: (← run steps)

end Checked

end ArenaHeap
