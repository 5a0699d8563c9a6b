import ArenaHeap.Collect.Collection
import ArenaHeap.Heap.Block
import ArenaHeap.Heap.View

namespace ArenaHeap

/-!
# Histories of a heap

The states that a heap goes through in regular use: it is placed in an arena, blocks are
requested and collected, and words are stored in allocated blocks and in the reserved part.
`Heap.Reached` describes these states; laws that hold of a heap in regular use are laws about
them. What a stray store leaves behind is a heap too, but none of these.
-/

variable {L : Layout}

/-- Roots that a collection can read: the address of a root that is set lies in the heap, or is
    not the address of a whole word and so refers to nothing. -/
def Roots.Regular (r : Roots) (L : Layout) : Prop :=
  ∀ v ∈ r.candidates, L.Spans v ∨ ¬ v.Aligned

instance (r : Roots) (L : Layout) : Decidable (r.Regular L) :=
  List.decidableBAll (fun v => L.Spans v ∨ ¬ v.Aligned) r.candidates

theorem Roots.regular_unset (L : Layout) : Roots.unset.Regular L := by
  intro v hv
  simp [Roots.candidates, Roots.unset, Roots.toList] at hv

/-- Something done to a heap. -/
inductive Step where
  | tryAllocate (tag : Tag) (size : Nat)
  | allocate (tag : Tag) (size : Nat) (roots : Roots)
  | collect (roots : Roots)
  /-- Overwrites a payload word of the block at an index. -/
  | store (block : Nat) (k : Nat) (w : Word)
  /-- Overwrites a reserved word. -/
  | storeReserved (k : Nat) (w : Word)
deriving DecidableEq, Repr

namespace Step

/-- A step that regular use of a heap may take: collections read roots they can read, and words
    are stored in allocated blocks only. -/
def Regular (h : Heap L) : Step → Prop
  | tryAllocate _ _ => True
  | allocate _ _ roots => roots.Regular L
  | collect roots => roots.Regular L
  | store block _ _ => h.Allocated block
  | storeReserved _ _ => True

/-- The heap after a step. -/
def apply (h : Heap L) : Step → Heap L
  | tryAllocate tag size => (HeapM.tryAllocate tag size h).2
  | allocate tag size roots => (h.allocate tag size roots).2
  | collect roots => (h.collect roots).2
  | store block k w => (HeapM.store (.ofIndex block) k w h).2
  | storeReserved k w => (HeapM.storeReserved k w h).2

end Step

/-- The states of a heap in regular use. -/
inductive Heap.Reached : Heap L → Prop
  | placed {a : Arena} {start : Pointer} {h : Heap L} :
      a.intoHeap start = .ok ⟨L, h⟩ → Heap.Reached h
  | step {h : Heap L} {s : Step} : Heap.Reached h → s.Regular h → Heap.Reached (s.apply h)

end ArenaHeap
