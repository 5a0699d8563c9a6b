namespace ArenaHeap

/-!
# Faults

A fault is a defect that an access runs into: the heap was handed something that is no block, or
its words were overwritten. The operation stops there, and what it did before stays done.
Refusals that callers are to expect are `HeapError`s instead.
-/

/-- Why an operation on a heap stopped. -/
inductive Fault where
  /-- A bit was asked for a word outside the heap's `[first, limit)`. -/
  | bitOutside (word first limit : Nat)
  /-- There is no list of free blocks with this number. -/
  | noSuchList (number : Nat)
  /-- A pointer does not name a payload word of the heap. -/
  | notABlock
  /-- A word outside the arena was needed. -/
  | wordOutside
  /-- The links of a list lead round in a circle, so following them never ends. -/
  | endless
deriving DecidableEq, Repr, Inhabited

namespace Fault

/-- What is said about a fault, where something is said. -/
def message? : Fault → Option String
  | bitOutside word first limit =>
    some s!"bitmap access outside heap: word {word} not in [{first}, {limit})"
  | noSuchList number => some s!"no free list for class {number}"
  | notABlock => some "not a block in this heap"
  | wordOutside => none
  | endless => none

end Fault

end ArenaHeap
