import ArenaHeap.Heap.View
import Mathlib

namespace ArenaHeap

/-!
# What writes leave alone

Every view of a heap reads few words: a size and a tag the header, a link the first payload word,
a bit one word of the bitmap. So a write changes a view only where it hits one of these words.

* `VAddr.ofIndex_index`, `Layout.spans_ofIndex` — an address of a whole word is the address of its
  index, and it lies in the heap just when the index does.
* `Heap.sizeOf_congr`, `Heap.tagOf_congr`, `Heap.bit_congr` — views of heaps that agree on the
  words read.
* `Heap.sizeOf_putHeader`, `Heap.tagOf_putHeader` — the header written is the header read.
* `HeapM.bind_apply`, `HeapM.write_apply`, `HeapM.writeHeader_apply` — an operation run on a heap
  whose words it can reach.
-/

variable {L : Layout}

/-! ### Addresses -/

namespace VAddr

/-- The address of a whole word is the address of its index. -/
theorem ofIndex_index {v : VAddr} (hv : v.Aligned) : ofIndex v.index = v := by
  have hlt := v.toNat_lt
  rw [Aligned, Word.bytes] at hv
  apply UInt32.toNat_inj.1
  rw [toNat_ofIndex (by rw [index, Word.bytes]; omega), index, Word.bytes]
  omega

/-- Only the arena's first word has the address that stands for "no block". -/
theorem ofIndex_ne_null {i : Nat} (hi : i < 1 <<< 30) (h₀ : 0 < i) : ofIndex i ≠ null := by
  intro hnull
  have h : (ofIndex i).toNat = 0 := by rw [hnull]; rfl
  rw [toNat_ofIndex hi] at h
  omega

end VAddr

namespace Layout

theorem size_lt (L : Layout) : L.size < 1 <<< 30 := L.addressable

theorem InHeap.lt_size {i : Nat} (hi : L.InHeap i) : i < L.size := hi.2

theorem InHeap.lt {i : Nat} (hi : L.InHeap i) : i < 1 <<< 30 :=
  Nat.lt_trans hi.lt_size L.size_lt

/-- The bitmap takes at least one word, so no heap word is the arena's first. -/
theorem heapStart_pos (L : Layout) : 0 < L.heapStart := by
  have := L.covered
  have := L.fits
  simp only [heapStart, Word.bits, Header.words, Header.minSize] at *
  omega

theorem heapEnd_le (L : Layout) : L.heapEnd ≤ L.heapStart + Header.words + Header.maxSize := by
  have := L.recordable
  simp only [heapEnd, size, heapStart]
  omega

/-- The address of a word lies in the heap just when the word does. -/
theorem spans_ofIndex {i : Nat} (hi : i < 1 <<< 30) : L.Spans (.ofIndex i) ↔ L.InHeap i := by
  have hend : L.heapEnd < 1 <<< 30 := L.size_lt
  have hstart : L.heapStart < 1 <<< 30 := by
    have := L.size_lt
    simp only [heapStart, size] at *
    omega
  simp only [Spans, InHeap, lowest, limit, UInt32.le_iff_toNat_le, UInt32.lt_iff_toNat_lt,
    VAddr.toNat_ofIndex hi, VAddr.toNat_ofIndex hend, VAddr.toNat_ofIndex hstart]
  omega

/-- An address of a whole word of the heap is the address of a heap word. -/
theorem Spans.inHeap {v : VAddr} (hv : L.Spans v) (ha : v.Aligned) : L.InHeap v.index := by
  have hlt := v.toNat_lt
  rw [← VAddr.ofIndex_index ha] at hv
  refine (spans_ofIndex ?_).1 hv
  rw [VAddr.index, Word.bytes]
  omega

end Layout

namespace Heap

/-! ### Views of heaps that agree -/

variable {h h' : Heap L}

theorem word_of_words (hwords : h'.words = h.words) (i : Nat) : h'.word i = h.word i := by
  rw [word, word, hwords]

theorem sizeOf_congr {b : Nat} (hw : h'.word (b - 1) = h.word (b - 1)) :
    h'.sizeOf b = h.sizeOf b := by
  rw [sizeOf, sizeOf, Header.words, hw]

theorem tagOf_congr {b : Nat} (hw : h'.word (b - 1) = h.word (b - 1)) :
    h'.tagOf b = h.tagOf b := by
  rw [tagOf, tagOf, Header.words, hw]

theorem bit_congr {i : Nat} (hw : h'.word (L.bitWord i) = h.word (L.bitWord i)) :
    h'.bit i = h.bit i := by
  rw [bit, bit, hw]

theorem payloadOf_congr {b : Nat} (hsize : h'.sizeOf b = h.sizeOf b)
    (hw : ∀ k < h.sizeOf b, h'.word (b + k) = h.word (b + k)) :
    h'.payloadOf b = h.payloadOf b := by
  rw [payloadOf, payloadOf, hsize]
  exact List.map_congr_left fun k hk => hw k (List.mem_range.1 hk)

/-! ### Single writes -/

theorem word_put_self (h : Heap L) {i : Nat} (hi : i < L.size) (w : Word) :
    (h.put i w).word i = w := by
  rw [word_put, if_pos ⟨rfl, hi⟩]

theorem word_put_ne (h : Heap L) {i j : Nat} (hij : i ≠ j) (w : Word) :
    (h.put i w).word j = h.word j := by
  rw [word_put, if_neg (fun hc => hij hc.1)]

/-- The heap with the header of a block replaced. -/
def putHeader (h : Heap L) (b : Nat) (t : Tag) (n : Nat) : Heap L :=
  h.put (b - Header.words) (Header.ofSize t n)

theorem word_putHeader_ne (h : Heap L) {b j : Nat} (hj : j ≠ b - 1) (t : Tag) (n : Nat) :
    (h.putHeader b t n).word j = h.word j :=
  h.word_put_ne (Ne.symm hj) _

/-- The size written is the size read. -/
theorem sizeOf_putHeader (h : Heap L) {b : Nat} (hb : b - 1 < L.size) (t : Tag) {n : Nat}
    (hn : n ≤ Header.maxSize) : (h.putHeader b t n).sizeOf b = n := by
  rw [sizeOf, putHeader, Header.words, h.word_put_self hb, Header.size_ofSize t hn]

/-- The tag written is the tag read. -/
theorem tagOf_putHeader (h : Heap L) {b : Nat} (hb : b - 1 < L.size) (t : Tag) {n : Nat}
    (hn : n ≤ Header.maxSize) : (h.putHeader b t n).tagOf b = t := by
  rw [tagOf, putHeader, Header.words, h.word_put_self hb, Header.tag_ofSize t hn]

theorem get_set_self (heads : Vector VAddr listCount) (n : Fin listCount) (v : VAddr) :
    (heads.set n v n.isLt).get n = v := by
  show (heads.set n v n.isLt)[n.val] = v
  exact Vector.getElem_set_self n.isLt

theorem get_set_ne (heads : Vector VAddr listCount) {m n : Fin listCount} (hn : n ≠ m)
    (v : VAddr) : (heads.set m v m.isLt).get n = heads.get n := by
  show (heads.set m v m.isLt)[n.val] = heads[n.val]
  exact Vector.getElem_set_ne m.isLt n.isLt fun hc => hn (Fin.ext hc.symm)

/-- The heap with the head of the list of free blocks replaced. -/
def withHead (h : Heap L) (v : VAddr) : Heap L :=
  { h with heads := h.heads.set commonList v commonList.isLt }

/-- The heap with an address put where the list of free blocks continues after `pred`. -/
def relinked (h : Heap L) (pred : Option Nat) (next : VAddr) : Heap L :=
  match pred with
  | some b => h.put b next
  | none => h.withHead next

theorem heads_relinked (h : Heap L) (pred : Option Nat) (next : VAddr) {n : Fin listCount}
    (hn : n ≠ commonList) : (h.relinked pred next).heads.get n = h.heads.get n := by
  cases pred with
  | some b => rfl
  | none => exact get_set_ne h.heads hn next

end Heap

/-! ### Operations -/

namespace HeapM

variable {α β : Type}

@[simp] theorem ask_apply (look : Heap L → Except Fault α) (h : Heap L) :
    ask look h = (look h, h) := rfl

theorem ask_eq_ok {look : Heap L → Except Fault α} {h : Heap L} {a : α} (hl : look h = .ok a) :
    ask look h = (.ok a, h) := by
  rw [ask_apply, hl]

theorem ask_eq_error {look : Heap L → Except Fault α} {h : Heap L} {fault : Fault}
    (hl : look h = .error fault) : ask look h = (.error fault, h) := by
  rw [ask_apply, hl]

@[simp] theorem change_apply (f : Heap L → Heap L) (h : Heap L) :
    change f h = (.ok (), f h) := rfl

/-- An operation goes on with what the one before it left. -/
theorem bind_apply {m : HeapM L α} {f : α → HeapM L β} {h h' : Heap L} {a : α}
    (hm : m h = (.ok a, h')) : (m >>= f) h = f a h' := by
  show ExceptT.bind m f h = f a h'
  simp only [ExceptT.bind, ExceptT.mk, bind, StateT.bind, ExceptT.bindCont]
  rw [hm]

/-- An operation stops where the one before it did. -/
theorem bind_error {m : HeapM L α} {f : α → HeapM L β} {h h' : Heap L} {fault : Fault}
    (hm : m h = (.error fault, h')) : (m >>= f) h = (.error fault, h') := by
  show ExceptT.bind m f h = _
  simp only [ExceptT.bind, ExceptT.mk, bind, StateT.bind, ExceptT.bindCont]
  rw [hm]
  rfl

theorem write_apply (h : Heap L) {i : Nat} (hi : i < L.size) (w : Word) :
    write i w h = (.ok (), h.put i w) := if_pos hi

theorem writeHeader_apply (h : Heap L) {b : Nat} (h₀ : 0 < b) (hb : b ≤ L.size) (t : Tag)
    (n : Nat) : writeHeader b t n h = (.ok (), h.putHeader b t n) := by
  have hw : Header.words ≤ b := h₀
  have hask : ask (fun _ : Heap L => Heap.headerIndex b) h = (.ok (b - Header.words), h) := by
    simp only [ask, Heap.headerIndex, hw, if_true]
  rw [writeHeader, bind_apply hask]
  exact write_apply h (by rw [Header.words]; omega) _

theorem relink_apply (h : Heap L) {pred : Option Nat} (hp : ∀ b ∈ pred, b < L.size)
    (next : VAddr) : relink pred next h = (.ok (), h.relinked pred next) := by
  cases pred with
  | none => rfl
  | some b => exact write_apply h (hp b rfl) next

theorem setBit_apply (h : Heap L) {i : Nat} (hi : L.InHeap i) :
    setBit i h = (.ok (), h.setBit i) := if_pos hi

theorem clearBit_apply (h : Heap L) {i : Nat} (hi : L.InHeap i) :
    clearBit i h = (.ok (), h.clearBit i) := if_pos hi

end HeapM

end ArenaHeap
