import ArenaHeap.HeapError

namespace ArenaHeap

/-!
# Layout of an arena with a heap

Once a heap is placed, an arena has three adjacent regions:

```text
[ reserved | bitmap | heap ]
```

The reserved words belong to the embedder. The bitmap has one bit for each heap word. The heap is
cut into blocks. `Layout.place` finds the sizes for a start of the bitmap, or says why no heap
fits there.
-/

/-- The sizes in words of the three regions. -/
structure Layout where
  /-- Words in front of the bitmap. -/
  reserved : Nat
  /-- Words of the bitmap. -/
  bitmap : Nat
  /-- Words of the heap. -/
  heap : Nat
  covered : heap ≤ bitmap * Word.bits
  fits : Header.words + Header.minSize ≤ heap
  recordable : heap ≤ Header.words + Header.maxSize
  addressable : reserved + bitmap + heap < 1 <<< 30

namespace Layout

/-- The words of all three regions. -/
def size (L : Layout) : Nat := L.reserved + L.bitmap + L.heap

/-- The index of the first heap word. -/
def heapStart (L : Layout) : Nat := L.reserved + L.bitmap

/-- The index past the last heap word, which is the arena's last. -/
def heapEnd (L : Layout) : Nat := L.size

/-- The index of the first payload word of the block at the heap's start. -/
def firstBlock (L : Layout) : Nat := L.heapStart + Header.words

/-- The virtual address of the first heap word. -/
def lowest (L : Layout) : VAddr := .ofIndex L.heapStart

/-- The virtual address past the last heap word. -/
def limit (L : Layout) : VAddr := .ofIndex L.heapEnd

/-- The index of a heap word. -/
def InHeap (L : Layout) (i : Nat) : Prop := L.heapStart ≤ i ∧ i < L.heapEnd

instance (L : Layout) (i : Nat) : Decidable (L.InHeap i) := inferInstanceAs (Decidable (_ ∧ _))

/-- A virtual address that lies in the heap. -/
def Spans (L : Layout) (v : VAddr) : Prop := L.lowest ≤ v ∧ v < L.limit

instance (L : Layout) (v : VAddr) : Decidable (L.Spans v) := inferInstanceAs (Decidable (_ ∧ _))

/-- The bitmap words needed when `rest` words are to be shared between bitmap and heap: one for
    every 33 words or part of them. -/
def bitmapFor (rest : Nat) : Nat := (rest - 1) / (Word.bits + 1) + 1

/-- The bitmap has a bit for every word that is left to the heap. -/
theorem sub_bitmapFor_le (rest : Nat) : rest - bitmapFor rest ≤ bitmapFor rest * Word.bits := by
  simp only [bitmapFor, Word.bits]
  omega

/-- Reserved words, bitmap and heap make up the arena. -/
theorem size_place {length reserved : Nat} (hr : reserved < length) :
    reserved + bitmapFor (length - reserved) +
      (length - reserved - bitmapFor (length - reserved)) = length := by
  simp only [bitmapFor, Word.bits]
  omega

/-- Places bitmap and heap from `start` to the end of an arena of `length` words. -/
def place (length : Nat) (h : length < 1 <<< 30) (start : Pointer) :
    Except HeapError { L : Layout // L.size = length } :=
  match hi : start.index? length with
  | none => .error (.invalidHeapStart start.toInt)
  | some reserved =>
    let bitmap := bitmapFor (length - reserved)
    let heap := length - reserved - bitmap
    if hs : heap < Header.words + Header.minSize then
      .error (.heapTooSmall heap)
    else if hl : Header.maxSize < heap - Header.words then
      .error (.heapTooLarge heap)
    else
      have hsize : reserved + bitmap + heap = length := size_place (Pointer.lt_of_index? hi)
      .ok ⟨{
        reserved, bitmap, heap
        covered := sub_bitmapFor_le (length - reserved)
        fits := Nat.le_of_not_lt hs
        recordable := Nat.sub_le_iff_le_add'.1 (Nat.le_of_not_lt hl)
        addressable := Nat.lt_of_le_of_lt (Nat.le_of_eq hsize) h },
        hsize⟩

end Layout

end ArenaHeap
