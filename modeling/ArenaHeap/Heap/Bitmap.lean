import ArenaHeap.Heap.Basic

namespace ArenaHeap

/-!
# The bitmap

Every heap word has a bit in the bitmap, lowest bit first. Only the bit of a block's first
payload word says something: it is set while the block is allocated and not yet visited by the
running collection, and clear if the block is free or was visited.

The bitmap behaves as an array of independent bits: `Heap.bit_setBit` and `Heap.bit_clearBit`
give every bit after a change. `Heap.bitCount_clearBit_lt` is why marking ends.
-/

variable {L : Layout}

namespace Layout

/-- The index of the bitmap word that holds the bit of heap word `i`. -/
def bitWord (L : Layout) (i : Nat) : Nat := L.reserved + (i - L.heapStart) / Word.bits

/-- The place of the bit of heap word `i` in its bitmap word. -/
def bitPlace (L : Layout) (i : Nat) : Nat := (i - L.heapStart) % Word.bits

theorem bitPlace_lt (L : Layout) (i : Nat) : L.bitPlace i < 32 :=
  Nat.mod_lt _ (by decide)

/-- The bits of all heap words lie in the bitmap. -/
theorem bitWord_lt_heapStart {i : Nat} (hi : L.InHeap i) : L.bitWord i < L.heapStart := by
  obtain ⟨_, _⟩ := hi
  have := L.covered
  simp only [bitWord, heapStart, heapEnd, size, Word.bits] at *
  omega

theorem bitWord_lt_size {i : Nat} (hi : L.InHeap i) : L.bitWord i < L.size :=
  Nat.lt_of_lt_of_le (bitWord_lt_heapStart hi) (Nat.le_add_right ..)

/-- Two words from the heap's start on with the same bitmap word and place are the same, also
    where the last bitmap word has bits to spare. -/
theorem eq_of_bitWord_eq {i j : Nat} (hi : L.heapStart ≤ i) (hj : L.heapStart ≤ j)
    (hw : L.bitWord i = L.bitWord j) (hp : L.bitPlace i = L.bitPlace j) : i = j := by
  simp only [bitWord, bitPlace, Word.bits] at *
  omega

end Layout

/-- The word with only the bit at `place` set. -/
def Word.single (place : Nat) : Word := 1 <<< UInt32.ofNat place

theorem Word.getLsbD_single {p q : Nat} (hp : p < 32) (hq : q < 32) :
    (Word.single p).toBitVec.getLsbD q = decide (p = q) := by
  have hmod : p % 4294967296 % 32 = p := by omega
  simp only [Word.single, UInt32.toBitVec_shiftLeft]
  simp [hmod, hq]
  by_cases hpq : p = q
  · simp [hpq]
  · simp [hpq]
    omega

namespace Heap

/-! ### Single bits -/

/-- The bit of heap word `i`. -/
def bit (h : Heap L) (i : Nat) : Bool := (h.word (L.bitWord i)).toBitVec.getLsbD (L.bitPlace i)

/-- The heap with the bit of heap word `i` set. -/
def setBit (h : Heap L) (i : Nat) : Heap L :=
  h.put (L.bitWord i) (h.word (L.bitWord i) ||| Word.single (L.bitPlace i))

/-- The heap with the bit of heap word `i` cleared. -/
def clearBit (h : Heap L) (i : Nat) : Heap L :=
  h.put (L.bitWord i) (h.word (L.bitWord i) &&& ~~~Word.single (L.bitPlace i))

/-- The bit of heap word `i`; words outside the heap have none. -/
def bitAt (h : Heap L) (i : Nat) : Except Fault Bool :=
  if L.InHeap i then .ok (h.bit i) else .error (.bitOutside i L.heapStart L.heapEnd)

theorem bit_setBit (h : Heap L) {i j : Nat} (hi : L.InHeap i) (hj : L.heapStart ≤ j) :
    (h.setBit i).bit j = (decide (i = j) || h.bit j) := by
  simp only [bit, setBit, word_put, L.bitWord_lt_size hi, and_true]
  by_cases hw : L.bitWord i = L.bitWord j
  · simp only [hw, if_true, UInt32.toBitVec_or, BitVec.getLsbD_or,
      Word.getLsbD_single (L.bitPlace_lt i) (L.bitPlace_lt j)]
    by_cases hij : i = j
    · simp [hij]
    · have hp : L.bitPlace i ≠ L.bitPlace j := fun hp => hij (L.eq_of_bitWord_eq hi.1 hj hw hp)
      simp [hij, hp]
  · have hij : i ≠ j := fun hij => hw (hij ▸ rfl)
    simp [hw, hij]

theorem bit_clearBit (h : Heap L) {i j : Nat} (hi : L.InHeap i) (hj : L.heapStart ≤ j) :
    (h.clearBit i).bit j = (!decide (i = j) && h.bit j) := by
  simp only [bit, clearBit, word_put, L.bitWord_lt_size hi, and_true]
  by_cases hw : L.bitWord i = L.bitWord j
  · simp only [hw, if_true, UInt32.toBitVec_and, BitVec.getLsbD_and, UInt32.toBitVec_not,
      BitVec.getLsbD_not, L.bitPlace_lt j,
      Word.getLsbD_single (L.bitPlace_lt i) (L.bitPlace_lt j)]
    by_cases hij : i = j
    · simp [hij]
    · have hp : L.bitPlace i ≠ L.bitPlace j := fun hp => hij (L.eq_of_bitWord_eq hi.1 hj hw hp)
      simp [hij, hp]
  · have hij : i ≠ j := fun hij => hw (hij ▸ rfl)
    simp [hw, hij]

/-- Setting a bit changes no word but one of the bitmap. -/
theorem word_setBit (h : Heap L) {i j : Nat} (hj : j ≠ L.bitWord i) :
    (h.setBit i).word j = h.word j := by
  rw [setBit, word_put, if_neg (fun hc => hj hc.1.symm)]

/-- Clearing a bit changes no word but one of the bitmap. -/
theorem word_clearBit (h : Heap L) {i j : Nat} (hj : j ≠ L.bitWord i) :
    (h.clearBit i).word j = h.word j := by
  rw [clearBit, word_put, if_neg (fun hc => hj hc.1.symm)]

/-! ### The number of set bits -/

/-- How many heap words have their bit set. -/
def bitCount (h : Heap L) : Nat :=
  (List.range L.heap).countP fun k => h.bit (L.heapStart + k)

theorem bitCount_clearBit_lt (h : Heap L) {i : Nat} (hi : L.InHeap i) (hb : h.bit i = true) :
    (h.clearBit i).bitCount < h.bitCount := by
  have hin : ∀ k ∈ List.range L.heap, L.InHeap (L.heapStart + k) := by
    intro k hk
    have := List.mem_range.1 hk
    simp only [Layout.InHeap, Layout.heapStart, Layout.heapEnd, Layout.size]
    omega
  have hsplit : ∀ l : List Nat, (∀ k ∈ l, L.InHeap (L.heapStart + k)) →
      (i - L.heapStart) ∈ l →
      l.countP (fun k => (h.clearBit i).bit (L.heapStart + k)) <
        l.countP (fun k => h.bit (L.heapStart + k)) := by
    intro l hl hmem
    induction l with
    | nil => simp at hmem
    | cons k l ih =>
      have hk := hl k (by simp)
      -- No bit was set that is not set still.
      have hmono : l.countP (fun k => (h.clearBit i).bit (L.heapStart + k)) ≤
          l.countP (fun k => h.bit (L.heapStart + k)) := by
        apply List.countP_mono_left
        intro m hm hbit
        rw [bit_clearBit h hi (hl m (by simp [hm])).1] at hbit
        simp_all
      obtain ⟨hlow, hhigh⟩ := hi
      by_cases hki : i = L.heapStart + k
      · have hbk : h.bit (L.heapStart + k) = true := hki ▸ hb
        have hck : (h.clearBit i).bit (L.heapStart + k) = false := by
          rw [bit_clearBit h ⟨hlow, hhigh⟩ hk.1]
          simp [hki]
        simp only [List.countP_cons, hbk, hck]
        simp
        omega
      · have hrest : (i - L.heapStart) ∈ l := by
          rcases List.mem_cons.1 hmem with heq | hmem
          · omega
          · exact hmem
        have hsame : (h.clearBit i).bit (L.heapStart + k) = h.bit (L.heapStart + k) := by
          rw [bit_clearBit h ⟨hlow, hhigh⟩ hk.1]
          simp [hki]
        have := ih (fun m hm => hl m (by simp [hm])) hrest
        simp only [List.countP_cons, hsame]
        omega
  apply hsplit _ hin
  obtain ⟨_, _⟩ := hi
  simp only [List.mem_range, Layout.heapStart, Layout.heapEnd, Layout.size] at *
  omega

end Heap

namespace HeapM

/-- Sets the bit of a heap word. -/
def setBit (i : Nat) : HeapM L Unit := fun h =>
  if L.InHeap i then (.ok (), h.setBit i)
  else (.error (.bitOutside i L.heapStart L.heapEnd), h)

/-- Clears the bit of a heap word. -/
def clearBit (i : Nat) : HeapM L Unit := fun h =>
  if L.InHeap i then (.ok (), h.clearBit i)
  else (.error (.bitOutside i L.heapStart L.heapEnd), h)

end HeapM

end ArenaHeap
