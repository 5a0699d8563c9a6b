import ArenaHeap.Heap.Bitmap

namespace ArenaHeap

/-!
# Marking

A candidate is any word. It names a block if it is the address of a whole word whose bit is set;
marking then clears the bit, so a clear bit also says "visited", and looks at the payload words
that are addresses in the heap. Candidates wait on a work-list, last in, first out, so chains of
any length can be followed.

Each step either clears a bit or shortens the work-list, which is why `Heap.trace` ends on
every content of the words.
-/

variable {L : Layout}

/-- The payload words that are addresses in the heap, on top of those pending; the last payload
    word comes first. -/
def Layout.pend (L : Layout) (payload : Array Word) (pending : List VAddr) : List VAddr :=
  payload.foldl (fun pending w => if L.Spans w then w :: pending else pending) pending

namespace Heap

/-- Visits all that can be reached from the pending candidates, on top of `marked` blocks; the
    result is the number of blocks visited then. -/
def trace (h : Heap L) (pending : List VAddr) (marked : Nat) : Except Fault Nat × Heap L :=
  match pending with
  | [] => (.ok marked, h)
  | v :: pending =>
    if v.Aligned then
      if L.InHeap v.index then
        if h.bit v.index then
          -- The bit goes first, so a block that refers to itself is not visited again.
          let visited := h.clearBit v.index
          match visited.payloadAt v.index with
          | .ok payload => visited.trace (L.pend payload pending) (marked + 1)
          | .error fault => (.error fault, visited)
        else
          h.trace pending marked
      else
        (.error (.bitOutside v.index L.heapStart L.heapEnd), h)
    else
      h.trace pending marked
termination_by (h.bitCount, pending.length)
decreasing_by
  · exact Prod.Lex.left _ _ (h.bitCount_clearBit_lt ‹_› ‹_›)
  · exact Prod.Lex.right _ (by simp)
  · exact Prod.Lex.right _ (by simp)

end Heap

/-- Visits all that can be reached from one candidate, and counts the blocks visited. -/
def HeapM.mark (candidate : VAddr) : HeapM L Nat := fun h => h.trace [candidate] 0

end ArenaHeap
