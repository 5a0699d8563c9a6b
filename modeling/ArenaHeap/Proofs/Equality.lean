import ArenaHeap.Proofs.Marking

namespace ArenaHeap

/-!
# Equal heaps

Two heaps are the same as soon as all words, all list heads and the counters are. For the bitmap
it is enough to compare bits, since every place of every bitmap word is the bit of some index.

* `Heap.ext_bits` — equal heaps by their words off the bitmap and their bits.
* `Heap.put_self`, `Heap.putHeader_self`, `Heap.clearBit_self`, `Heap.Links.relinked_self` — a write
  of what is there already changes nothing.
* `Heap.clearBits_congr`, `Heap.setBit_clearBits_cons` — the order in which bits were cleared does
  not matter, and setting one again undoes that.
* `Heap.clearBits_comm` — what does not touch some bits may be done before they are cleared.
-/

variable {L : Layout}

/-! ### Places in the bitmap -/

namespace Layout

/-- Every place of a bitmap word is the bit of an index. -/
theorem exists_hasBit {i p : Nat} (hlow : L.reserved ≤ i) (hhigh : i < L.heapStart)
    (hp : p < Word.bits) : ∃ j, L.HasBit j ∧ L.bitWord j = i ∧ L.bitPlace j = p := by
  refine ⟨L.heapStart + ((i - L.reserved) * Word.bits + p), ⟨Nat.le_add_right .., ?_⟩, ?_, ?_⟩
  · rw [heapStart, Word.bits] at *
    omega
  · rw [bitWord, Nat.add_sub_cancel_left, Word.bits] at *
    omega
  · rw [bitPlace, Nat.add_sub_cancel_left, Word.bits] at *
    omega

end Layout

/-- The size and the tag that a header records are all there is to it. -/
theorem Header.ofSize_size (w : Word) : Header.ofSize (Header.tag w) (Header.size w).toNat = w := by
  apply UInt32.toNat_inj.1
  have htag : (Header.tag w).toNat = w.toNat % 256 := by
    rw [Header.tag, UInt32.toNat_toUInt8]
  have hsize : (Header.size w).toNat = w.toNat / 256 := by
    rw [Header.size, UInt32.toNat_shiftRight, Nat.shiftRight_eq_div_pow]
    rfl
  rw [Header.toNat_ofSize _ (Header.toNat_size_le w), htag, hsize]
  omega

namespace Heap

variable {h h' : Heap L}

/-! ### Equality by views -/

/-- Heaps with the same words, the same list heads and the same counters are the same. -/
theorem ext_word (hword : ∀ i, h'.word i = h.word i) (hheads : h'.heads = h.heads)
    (hcounters : h'.counters = h.counters) : h' = h := by
  obtain ⟨words, heads, counters⟩ := h
  obtain ⟨words', heads', counters'⟩ := h'
  obtain rfl : heads' = heads := hheads
  obtain rfl : counters' = counters := hcounters
  obtain rfl : words' = words := by
    apply Vector.ext
    intro i hi
    have hi' := hword i
    simpa [word, hi] using hi'
  rfl

/-- Bitmap words are the same if all bits are. -/
theorem word_eq_of_bit (hbit : ∀ i, L.HasBit i → h'.bit i = h.bit i) {i : Nat}
    (hlow : L.reserved ≤ i) (hhigh : i < L.heapStart) : h'.word i = h.word i := by
  apply UInt32.eq_of_toBitVec_eq
  apply BitVec.eq_of_getLsbD_eq
  intro p hp
  obtain ⟨j, hj, hword, hplace⟩ := L.exists_hasBit hlow hhigh hp
  have heq := hbit j hj
  rwa [bit, bit, hword, hplace] at heq

/-- **Equality by bits.** Heaps with the same words off the bitmap, the same bits, list heads and
    counters are the same. -/
theorem ext_bits (hword : ∀ i, i < L.reserved ∨ L.heapStart ≤ i → h'.word i = h.word i)
    (hbit : ∀ i, L.HasBit i → h'.bit i = h.bit i) (hheads : h'.heads = h.heads)
    (hcounters : h'.counters = h.counters) : h' = h := by
  refine ext_word (fun i => ?_) hheads hcounters
  by_cases hi : i < L.reserved ∨ L.heapStart ≤ i
  · exact hword i hi
  · exact word_eq_of_bit hbit (by omega) (by omega)

/-! ### Writes that change nothing -/

theorem put_self (h : Heap L) (i : Nat) : h.put i (h.word i) = h := by
  refine ext_word (fun j => ?_) rfl rfl
  rw [word_put]
  split
  · rename_i hij
    rw [hij.1]
  · rfl

/-- A header is its tag and its size. -/
theorem word_header_eq (htag : h'.tagOf b = h.tagOf b) (hsize : h'.sizeOf b = h.sizeOf b) :
    h'.word (b - 1) = h.word (b - 1) := by
  have hword : ∀ g : Heap L, Header.ofSize (g.tagOf b) (g.sizeOf b) = g.word (b - 1) :=
    fun g => Header.ofSize_size _
  rw [← hword h, ← hword h', htag, hsize]

/-- A header is rewritten by its own tag and size. -/
theorem putHeader_self (h : Heap L) (b : Nat) : h.putHeader b (h.tagOf b) (h.sizeOf b) = h := by
  rw [putHeader, tagOf, sizeOf, Header.ofSize_size]
  exact h.put_self _

theorem withHead_self (h : Heap L) : h.withHead (h.heads.get commonList) = h := by
  refine ext_word (fun _ => rfl) ?_ rfl
  show h.heads.set commonList h.heads[commonList.val] commonList.isLt = h.heads
  exact Vector.set_getElem_self commonList.isLt

/-- A bit that is clear is cleared already. -/
theorem clearBit_self {i : Nat} (hi : L.InHeap i) (hclear : h.bit i = false) :
    h.clearBit i = h := by
  refine ext_bits (fun j hj => word_clearBit h (hi.ne_bitWord hj)) (fun j hj => ?_) rfl rfl
  rw [bit_clearBit h hi hj.1]
  by_cases hij : i = j
  · rw [← hij, hclear, Bool.and_false]
  · rw [decide_eq_false hij, Bool.not_false, Bool.true_and]

/-- A path that ends at an address is not changed by writing that address where it ends. -/
theorem Links.relinked_self {blocks : List Nat} {next : VAddr}
    (hl : h.Links (h.heads.get commonList) blocks next) :
    h.relinked blocks.getLast? next = h := by
  rcases List.eq_nil_or_concat' blocks with rfl | ⟨front, b, rfl⟩
  · have hhead : h.heads.get commonList = next := hl
    rw [← hhead]
    exact h.withHead_self
  · have hlink : h.word b = next := (links_concat_iff.1 hl).2
    rw [List.getLast?_concat, ← hlink]
    exact h.put_self b

/-! ### Bits cleared and set again -/

section ClearBits

variable {visited others : List Nat} (hin : ∀ b ∈ visited, L.InHeap b)

include hin

/-- Which bits were cleared matters, and not in which order. -/
theorem clearBits_congr (hmem : ∀ b, b ∈ visited ↔ b ∈ others) :
    h.clearBits visited = h.clearBits others := by
  have hin' : ∀ b ∈ others, L.InHeap b := fun b hb => hin b ((hmem b).2 hb)
  refine ext_bits (fun j hj => ?_) (fun j hj => ?_) (by simp) ?_
  · rw [word_clearBits hin hj, word_clearBits hin' hj]
  · rw [bit_clearBits hin hj.1, bit_clearBits hin' hj.1, decide_eq_decide.2 (hmem j)]
  · rw [counters_clearBits, counters_clearBits]

/-- A bit that was set before it was cleared is set again. -/
theorem setBit_clearBits_cons {b : Nat} (hb : L.InHeap b) (hset : h.bit b = true)
    (hnew : b ∉ visited) : (h.clearBits (b :: visited)).setBit b = h.clearBits visited := by
  have hin' : ∀ c ∈ b :: visited, L.InHeap c := List.forall_mem_cons.2 ⟨hb, hin⟩
  refine ext_bits (fun j hj => ?_) (fun j hj => ?_) rfl rfl
  · rw [word_setBit _ (hb.ne_bitWord hj), word_clearBits hin' hj, word_clearBits hin hj]
  · rw [bit_setBit _ hb hj.1, bit_clearBits hin' hj.1, bit_clearBits hin hj.1]
    by_cases hbj : b = j
    · subst hbj
      simp [hset, hnew]
    · simp [hbj, Ne.symm hbj]

end ClearBits

/-! ### Writes beside the bits cleared -/

theorem put_comm (h : Heap L) {i j : Nat} (hij : i ≠ j) (v w : Word) :
    (h.put i v).put j w = (h.put j w).put i v := by
  refine ext_word (fun k => ?_) rfl rfl
  simp only [word_put]
  by_cases hik : i = k <;> by_cases hjk : j = k <;> simp [hik, hjk]
  omega

theorem put_clearBit (h : Heap L) {b i : Nat} (hi : i ≠ L.bitWord b) (w : Word) :
    (h.clearBit b).put i w = (h.put i w).clearBit b := by
  rw [clearBit, clearBit, put_comm h (Ne.symm hi), word_put_ne h hi]

theorem setBit_clearBit (h : Heap L) {b c : Nat} (hb : L.InHeap b) (hc : L.InHeap c)
    (hbc : b ≠ c) : (h.clearBit b).setBit c = (h.setBit c).clearBit b := by
  refine ext_bits (fun j hj => ?_) (fun j hj => ?_) rfl rfl
  · have hbj := hb.ne_bitWord hj
    have hcj := hc.ne_bitWord hj
    rw [word_setBit _ hcj, word_clearBit _ hbj, word_clearBit _ hbj, word_setBit _ hcj]
  · rw [bit_setBit _ hc hj.1, bit_clearBit _ hb hj.1, bit_clearBit _ hb hj.1,
      bit_setBit _ hc hj.1]
    by_cases hcj : c = j
    · subst hcj
      simp [hbc]
    · simp [hcj]

section Commuting

variable {visited : List Nat}

/-- What can be done before one bit is cleared or after it can be done before all are. -/
theorem clearBits_comm {f : Heap L → Heap L}
    (hf : ∀ g, ∀ b ∈ visited, f (g.clearBit b) = (f g).clearBit b) (h : Heap L) :
    f (h.clearBits visited) = (f h).clearBits visited := by
  induction visited with
  | nil => rfl
  | cons b bs ih =>
    rw [clearBits, clearBits, hf _ b (List.mem_cons_self ..),
      ih fun g c hc => hf g c (List.mem_cons_of_mem _ hc)]

variable (hin : ∀ b ∈ visited, L.InHeap b)

include hin

theorem put_clearBits {i : Nat} (hi : i < L.reserved ∨ L.heapStart ≤ i) (w : Word)
    (h : Heap L) : (h.clearBits visited).put i w = (h.put i w).clearBits visited := by
  exact clearBits_comm (f := fun g => g.put i w)
    (fun g b hb => g.put_clearBit ((hin b hb).ne_bitWord hi) w) h

theorem relinked_clearBits {pred : Option Nat} (hp : ∀ p ∈ pred, L.InHeap p) (next : VAddr)
    (h : Heap L) :
    (h.clearBits visited).relinked pred next = (h.relinked pred next).clearBits visited := by
  cases pred with
  | none => exact clearBits_comm (f := fun g => g.withHead next) (fun _ _ _ => rfl) h
  | some p => exact put_clearBits hin (.inr (hp p rfl).1) next h

theorem setBit_clearBits {c : Nat} (hc : L.InHeap c) (hnew : c ∉ visited) (h : Heap L) :
    (h.clearBits visited).setBit c = (h.setBit c).clearBits visited :=
  clearBits_comm (f := fun g => g.setBit c)
    (fun g b hb => g.setBit_clearBit (hin b hb) hc fun hbc => hnew (hbc ▸ hb)) h

end Commuting

end Heap

end ArenaHeap
