import ArenaHeap.Arena
import ArenaHeap.Fault
import ArenaHeap.Layout

namespace ArenaHeap

/-!
# The heap as words

A heap is the words of its arena, the heads of its lists of free blocks and a few counters.
Headers, links and bits are all plain words, so every state of the words is a heap, also one
that was overwritten by mistake. Reading and writing are checked here once: a word outside the
arena is a fault, and an operation of `HeapM` keeps what was written before a fault.

* `Heap.word` is the view that statements use; `Heap.word_put` says what a write does to it.
* `Arena.intoHeap` places a heap in an arena.
-/

/-- What a heap has done so far. -/
structure Counters where
  /-- Blocks handed out. -/
  allocations : Nat := 0
  /-- Completed collections. -/
  collections : Nat := 0
  /-- Blocks that collections found reachable. -/
  marked : Nat := 0
  /-- Blocks that collections took back. -/
  reclaimed : Nat := 0
  /-- Requests refused for want of memory. -/
  failures : Nat := 0
deriving DecidableEq, Repr

/-- The number of lists of free blocks. -/
def listCount : Nat := 32

/-- The list that holds the free blocks of every size; the others stay empty. -/
def commonList : Fin listCount := ⟨31, by decide⟩

/-- The list that a block size belongs to by rank: its own below the common one. -/
def listFor (size : Nat) : Nat := if listCount ≤ size then commonList.val else size

/-- A heap with a given layout. -/
structure Heap (L : Layout) where
  /-- The arena's words: reserved words, bitmap and blocks. -/
  words : Vector Word L.size
  /-- For each list the address of its first free block. -/
  heads : Vector VAddr listCount
  /-- What the heap has done so far. -/
  counters : Counters
deriving DecidableEq

/-- An operation on a heap, which a fault may cut short. -/
abbrev HeapM (L : Layout) := ExceptT Fault (StateM (Heap L))

variable {L : Layout}

namespace Heap

/-! ### Words -/

/-- The word at an index; 0 outside the arena. -/
def word (h : Heap L) (i : Nat) : Word := h.words[i]?.getD 0

/-- The word at an index, if it lies in the arena. -/
def read (h : Heap L) (i : Nat) : Except Fault Word :=
  if hi : i < L.size then .ok h.words[i] else .error .wordOutside

/-- The `n` words from an index on, if they all lie in the arena. -/
def slice (h : Heap L) (i n : Nat) : Except Fault (Array Word) :=
  if i + n ≤ L.size then .ok (h.words.toArray.extract i (i + n)) else .error .wordOutside

/-- The heap with one word replaced. -/
def put (h : Heap L) (i : Nat) (w : Word) : Heap L :=
  { h with words := h.words.setIfInBounds i w }

theorem read_eq_ok (h : Heap L) {i : Nat} (hi : i < L.size) : h.read i = .ok (h.word i) := by
  simp [read, word, hi]

theorem read_eq_error (h : Heap L) {i : Nat} (hi : L.size ≤ i) :
    h.read i = .error .wordOutside := by
  simp [read, Nat.not_lt.2 hi]

theorem word_put (h : Heap L) (i j : Nat) (w : Word) :
    (h.put i w).word j = if i = j ∧ i < L.size then w else h.word j := by
  simp only [put, word, Vector.getElem?_setIfInBounds]
  by_cases hij : i = j
  · subst hij
    by_cases hi : i < L.size <;> simp [hi]
  · simp [hij]

@[simp] theorem heads_put (h : Heap L) (i : Nat) (w : Word) : (h.put i w).heads = h.heads := rfl

@[simp] theorem counters_put (h : Heap L) (i : Nat) (w : Word) :
    (h.put i w).counters = h.counters := rfl

/-! ### Headers and links -/

/-- The index of a block's header. -/
def headerIndex (block : Nat) : Except Fault Nat :=
  if Header.words ≤ block then .ok (block - Header.words) else .error .wordOutside

/-- The header of a block. -/
def header (h : Heap L) (block : Nat) : Except Fault Word := do
  h.read (← headerIndex block)

/-- The payload size of a block, as its header has it. -/
def sizeAt (h : Heap L) (block : Nat) : Except Fault Nat := do
  return (Header.size (← h.header block)).toNat

/-- The tag of a block, as its header has it. -/
def tagAt (h : Heap L) (block : Nat) : Except Fault Tag := do
  return Header.tag (← h.header block)

/-- The address of the next free block, which a free block keeps in its first payload word. -/
def link (h : Heap L) (block : Nat) : Except Fault VAddr := h.read block

/-- The payload words of a block. -/
def payloadAt (h : Heap L) (block : Nat) : Except Fault (Array Word) := do
  h.slice block (← h.sizeAt block)

end Heap

namespace HeapM

/-- Looks at the heap. -/
@[inline] def ask {α : Type} (look : Heap L → Except Fault α) : HeapM L α :=
  fun h => (look h, h)

/-- Changes the heap. -/
@[inline] def change (f : Heap L → Heap L) : HeapM L Unit :=
  fun h => (.ok (), f h)

/-- Overwrites a word of the arena. -/
def write (i : Nat) (w : Word) : HeapM L Unit :=
  fun h => if i < L.size then (.ok (), h.put i w) else (.error .wordOutside, h)

/-- Overwrites the header of a block. -/
def writeHeader (block : Nat) (tag : Tag) (size : Nat) : HeapM L Unit := do
  write (← ask fun _ => Heap.headerIndex block) (Header.ofSize tag size)

/-- Overwrites the head of the list of free blocks. -/
def setHead (v : VAddr) : HeapM L Unit :=
  change fun h => { h with heads := h.heads.set commonList v commonList.isLt }

/-- Puts an address where the list of free blocks continues after `pred`: into the link of that
    block, or into the head if there is none. -/
def relink (pred : Option Nat) (next : VAddr) : HeapM L Unit :=
  match pred with
  | some block => write block next
  | none => setHead next

end HeapM

/-! ### Placing a heap -/

/-- Zeroes `n` words from an index on. -/
def zeroFrom {size : Nat} (words : Vector Word size) (i : Nat) : Nat → Vector Word size
  | 0 => words
  | n + 1 => zeroFrom (words.setIfInBounds i 0) (i + 1) n

/-- A heap with one free block, which fills it; the reserved words stay as they are. -/
def Heap.fresh (L : Layout) (words : Vector Word L.size) : Heap L where
  words :=
    ((zeroFrom words L.reserved L.bitmap).setIfInBounds L.heapStart
      (Header.ofSize Tag.free (L.heap - Header.words))).setIfInBounds L.firstBlock VAddr.null
  heads := (Vector.replicate listCount VAddr.null).set commonList (VAddr.ofIndex L.firstBlock)
    commonList.isLt
  counters := {}

/-- Places a heap in an arena, from `start` to the arena's end. -/
def Arena.intoHeap (a : Arena) (start : Pointer) : Except HeapError ((L : Layout) × Heap L) := do
  let ⟨L, hL⟩ ← Layout.place a.length a.addressable start
  return ⟨L, Heap.fresh L ⟨a.words, a.size_words.trans hL.symm⟩⟩

namespace Arena

variable {a : Arena} {start : Pointer}

theorem intoHeap_of_place {hL : L.size = a.length}
    (hplace : Layout.place a.length a.addressable start = .ok ⟨L, hL⟩) :
    a.intoHeap start = .ok ⟨L, .fresh L ⟨a.words, a.size_words.trans hL.symm⟩⟩ := by
  rw [intoHeap, hplace]
  rfl

theorem intoHeap_of_place_error {e : HeapError}
    (hplace : Layout.place a.length a.addressable start = .error e) :
    a.intoHeap start = .error e := by
  rw [intoHeap, hplace]
  rfl

end Arena

end ArenaHeap
