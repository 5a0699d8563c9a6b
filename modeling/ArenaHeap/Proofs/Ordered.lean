import ArenaHeap.Proofs.Links
import ArenaHeap.Proofs.Tiling

namespace ArenaHeap

/-!
# Heaps in order

Headers, links and bits are words among words; `Heap.Ordered` says that they fit together. The
blocks tile the heap, exactly the first payload words of the allocated ones have their bit set,
and the list of free blocks runs through all others in the order of their addresses, no two of
them side by side.

* `Heap.Ordered.congr` — order is kept by a change that spares headers, bits and the links of
  free blocks.
* `Heap.Ordered.put_payload`, `Heap.Ordered.put_reserved` — so the words of an allocated block and
  the reserved words may change at will.
* `Heap.ordered_fresh` — a heap that was just placed is in order.
-/

variable {L : Layout}

/-- A word index that has a bit in the bitmap; the last bitmap word may have bits to spare, which
    belong to no heap word. -/
def Layout.HasBit (L : Layout) (i : Nat) : Prop :=
  L.heapStart ≤ i ∧ i < L.heapStart + L.bitmap * Word.bits

/-- Every heap word has a bit. -/
theorem Layout.InHeap.hasBit {i : Nat} (hi : L.InHeap i) : L.HasBit i := by
  have hcov := L.covered
  have hhigh := hi.2
  refine ⟨hi.1, ?_⟩
  rw [Layout.heapEnd, Layout.size] at hhigh
  rw [Layout.heapStart]
  omega

/-- The bits that there are lie in front of the heap. -/
theorem Layout.HasBit.bitWord_lt {i : Nat} (hi : L.HasBit i) : L.bitWord i < L.heapStart := by
  obtain ⟨hlow, hhigh⟩ := hi
  simp only [Layout.bitWord, Layout.heapStart, Word.bits] at *
  omega

/-- No word off the bitmap holds a bit. -/
theorem Layout.InHeap.ne_bitWord {i j : Nat} (hi : L.InHeap i)
    (hj : j < L.reserved ∨ L.heapStart ≤ j) : j ≠ L.bitWord i := by
  have hlt := hi.hasBit.bitWord_lt
  have hle : L.reserved ≤ L.bitWord i := Nat.le_add_right ..
  omega

/-- The first block has at least one word. -/
theorem Layout.inHeap_firstBlock (L : Layout) : L.InHeap L.firstBlock := by
  have hfits := L.fits
  simp only [Layout.InHeap, Layout.firstBlock, Layout.heapEnd, Layout.size, Layout.heapStart,
    Header.words, Header.minSize] at *
  omega

namespace Heap

/-- The blocks whose bit is clear. -/
def freeOf (h : Heap L) (blocks : List Nat) : List Nat := blocks.filter fun b => !h.bit b

/-- Headers, links and bits fit together. -/
structure Ordered (h : Heap L) (blocks : List Nat) : Prop where
  /-- The blocks lie edge to edge and fill the heap. -/
  tiles : h.TilesTo L.heapStart blocks L.heapEnd
  /-- Only blocks have their bit set. -/
  mem_of_bit : ∀ i, L.HasBit i → h.bit i = true → i ∈ blocks
  /-- The others have the tag of free blocks. -/
  tagOf_free : ∀ b ∈ blocks, h.bit b = false → h.tagOf b = Tag.free
  /-- The list of free blocks runs through just those. -/
  links : h.Links (h.heads.get commonList) (h.freeOf blocks) VAddr.null
  /-- No two of them are neighbours. -/
  apart : ∀ b ∈ blocks, ∀ c ∈ blocks, c = b + h.sizeOf b + Header.words →
    h.bit b = true ∨ h.bit c = true
  /-- All other lists are empty. -/
  heads_null : ∀ n : Fin listCount, n ≠ commonList → h.heads.get n = VAddr.null

variable {h h' : Heap L} {blocks : List Nat}

theorem mem_freeOf {b : Nat} : b ∈ h.freeOf blocks ↔ b ∈ blocks ∧ h.bit b = false := by
  simp [freeOf]

theorem freeOf_congr (hbit : ∀ b ∈ blocks, h'.bit b = h.bit b) :
    h'.freeOf blocks = h.freeOf blocks :=
  List.filter_congr fun b hb => by rw [hbit b hb]

/-- A bit that is read in the bitmap is not touched by a write behind it. -/
theorem bit_put_of_le (h : Heap L) {i j : Nat} (hi : L.HasBit i) (hj : L.heapStart ≤ j)
    (w : Word) : (h.put j w).bit i = h.bit i := by
  have := hi.bitWord_lt
  exact bit_congr (h.word_put_ne (by omega) w)

/-- A bit that is read in the bitmap is not touched by a write in front of it. -/
theorem bit_put_of_lt (h : Heap L) (i : Nat) {j : Nat} (hj : j < L.reserved) (w : Word) :
    (h.put j w).bit i = h.bit i := by
  have : L.reserved ≤ L.bitWord i := Nat.le_add_right ..
  exact bit_congr (h.word_put_ne (by omega) w)

namespace Ordered

/-- A block lies in the heap, behind its header. -/
theorem bounds (ho : h.Ordered blocks) {b : Nat} (hb : b ∈ blocks) :
    L.heapStart < b ∧ 1 ≤ h.sizeOf b ∧ b + h.sizeOf b ≤ L.heapEnd := ho.tiles.bounds hb

theorem inHeap (ho : h.Ordered blocks) {b : Nat} (hb : b ∈ blocks) : L.InHeap b := by
  have := ho.bounds hb
  exact ⟨by omega, by omega⟩

/-- The allocated words are the blocks whose bit is set. -/
theorem allocated_iff (ho : h.Ordered blocks) {b : Nat} :
    h.Allocated b ↔ b ∈ blocks ∧ h.bit b = true :=
  ⟨fun ⟨hin, hbit⟩ => ⟨ho.mem_of_bit b hin.hasBit hbit, hbit⟩,
    fun ⟨hmem, hbit⟩ => ⟨ho.inHeap hmem, hbit⟩⟩

theorem inHeap_of_mem_freeOf (ho : h.Ordered blocks) : ∀ b ∈ h.freeOf blocks, L.InHeap b :=
  fun _ hb => ho.inHeap (mem_freeOf.1 hb).1

/-- No free block touches another one. -/
theorem not_touching (ho : h.Ordered blocks) {b c : Nat} (hb : b ∈ h.freeOf blocks)
    (hc : c ∈ h.freeOf blocks) : c ≠ b + h.sizeOf b + Header.words := by
  intro hnext
  obtain ⟨hbmem, hbclear⟩ := mem_freeOf.1 hb
  obtain ⟨hcmem, hcclear⟩ := mem_freeOf.1 hc
  rcases ho.apart b hbmem c hcmem hnext with hset | hset
  · rw [hset] at hbclear
    cases hbclear
  · rw [hset] at hcclear
    cases hcclear

/-- No word of an allocated block belongs to a free one. -/
theorem not_covers_free (ho : h.Ordered blocks) {b i : Nat} (hb : b ∈ blocks)
    (hset : h.bit b = true) (hi : h.Covers b i) {c : Nat} (hc : c ∈ blocks)
    (hclear : h.bit c = false) : ¬ h.Covers c i := by
  intro hci
  have hbc := ho.tiles.eq_of_covers hb hc hi hci
  rw [hbc, hclear] at hset
  cases hset

theorem nodup_freeOf (ho : h.Ordered blocks) : (h.freeOf blocks).Nodup :=
  ho.tiles.nodup.filter _

/-- Order is a matter of headers, bits, links of free blocks and list heads. -/
theorem congr (ho : h.Ordered blocks) (hheads : h'.heads = h.heads)
    (hbit : ∀ i, L.HasBit i → h'.bit i = h.bit i)
    (hheader : ∀ b ∈ blocks, h'.word (b - 1) = h.word (b - 1))
    (hlink : ∀ b ∈ blocks, h.bit b = false → h'.word b = h.word b) : h'.Ordered blocks where
  tiles := ho.tiles.congr fun b hb => sizeOf_congr (hheader b hb)
  mem_of_bit := fun i hi hset => ho.mem_of_bit i hi (hbit i hi ▸ hset)
  tagOf_free := by
    intro b hb hclear
    rw [hbit b (ho.inHeap hb).hasBit] at hclear
    rw [tagOf_congr (hheader b hb)]
    exact ho.tagOf_free b hb hclear
  links := by
    rw [hheads, freeOf_congr fun b hb => hbit b (ho.inHeap hb).hasBit]
    exact ho.links.congr fun b hb => hlink b (mem_freeOf.1 hb).1 (mem_freeOf.1 hb).2
  apart := by
    intro b hb c hc hnext
    rw [sizeOf_congr (hheader b hb)] at hnext
    rw [hbit b (ho.inHeap hb).hasBit, hbit c (ho.inHeap hc).hasBit]
    exact ho.apart b hb c hc hnext
  heads_null := fun n hn => by rw [hheads]; exact ho.heads_null n hn

/-- Words and list heads are all that order is about. -/
theorem of_words (ho : h.Ordered blocks) (hwords : h'.words = h.words)
    (hheads : h'.heads = h.heads) : h'.Ordered blocks :=
  ho.congr hheads (fun _ _ => bit_congr (word_of_words hwords _))
    (fun _ _ => word_of_words hwords _) fun _ _ _ => word_of_words hwords _

/-- A payload word of an allocated block is neither header nor link nor bit. -/
theorem put_payload (ho : h.Ordered blocks) {b : Nat} (hb : h.Allocated b) {k : Nat}
    (hk : k < h.sizeOf b) (w : Word) : (h.put (b + k) w).Ordered blocks := by
  obtain ⟨hmem, hset⟩ := ho.allocated_iff.1 hb
  have hstart := (ho.bounds hmem).1
  refine ho.congr rfl (fun i hi => h.bit_put_of_le hi (by omega) w) ?_ ?_
  · intro c hc
    refine h.word_put_ne ?_ w
    by_cases hcb : b = c
    · omega
    · have := (ho.bounds hc).1
      rcases ho.tiles.disjoint hmem hc hcb with hlt | hlt <;> omega
  · intro c hc hclear
    refine h.word_put_ne ?_ w
    have hne : b ≠ c := by
      rintro rfl
      rw [hset] at hclear
      exact Bool.noConfusion hclear
    rcases ho.tiles.disjoint hmem hc hne with hlt | hlt <;> omega

/-- A reserved word is neither header nor link nor bit. -/
theorem put_reserved (ho : h.Ordered blocks) {k : Nat} (hk : k < L.reserved) (w : Word) :
    (h.put k w).Ordered blocks := by
  have hlt : k < L.heapStart := Nat.lt_of_lt_of_le hk (Nat.le_add_right ..)
  refine ho.congr rfl (fun i _ => h.bit_put_of_lt i hk w) ?_ ?_
  · intro b hb
    have := (ho.bounds hb).1
    exact h.word_put_ne (by omega) w
  · intro b hb _
    have := (ho.bounds hb).1
    exact h.word_put_ne (by omega) w

end Ordered

/-! ### A heap that was just placed -/

theorem getD_zeroFrom {size : Nat} (words : Vector Word size) (i n j : Nat) :
    (zeroFrom words i n)[j]?.getD 0 = if i ≤ j ∧ j < i + n then 0 else words[j]?.getD 0 := by
  induction n generalizing words i with
  | zero =>
    rw [zeroFrom, if_neg (by omega)]
  | succ n ih =>
    rw [zeroFrom, ih, Vector.getElem?_setIfInBounds]
    by_cases hij : i = j
    · subst hij
      by_cases hi : i < size <;> simp [hi]
    · by_cases hj : i + 1 ≤ j ∧ j < i + 1 + n
      · rw [if_pos hj, if_pos (by omega)]
      · rw [if_neg hj, if_neg hij, if_neg (by omega)]

/-- The words of a heap that was just placed: no bit is set, and one header and one link are
    written. -/
theorem word_fresh (L : Layout) (words : Vector Word L.size) (j : Nat) :
    (fresh L words).word j =
      if j = L.firstBlock then VAddr.null
      else if j = L.heapStart then Header.ofSize Tag.free (L.heap - Header.words)
      else if L.reserved ≤ j ∧ j < L.heapStart then 0
      else words[j]?.getD 0 := by
  have hfits := L.fits
  have hsize : L.heapStart + 1 < L.size := by
    simp only [Layout.heapStart, Layout.size, Header.words, Header.minSize] at *
    omega
  simp only [word, fresh, Vector.getElem?_setIfInBounds, Layout.firstBlock, Header.words]
  by_cases hfirst : L.heapStart + 1 = j
  · subst hfirst
    simp [hsize]
  · by_cases hstart : L.heapStart = j
    · subst hstart
      simp [Nat.lt_of_succ_lt hsize]
    · simp only [hfirst, hstart, Ne.symm hfirst, Ne.symm hstart, if_false]
      rw [getD_zeroFrom]
      rfl

/-- A heap that was just placed has no bit set. -/
theorem bit_fresh (L : Layout) (words : Vector Word L.size) {i : Nat} (hi : L.HasBit i) :
    (fresh L words).bit i = false := by
  have hlt := hi.bitWord_lt
  have hres : L.reserved ≤ L.bitWord i := Nat.le_add_right ..
  rw [bit, word_fresh, if_neg (by rw [Layout.firstBlock, Header.words]; omega),
    if_neg (by omega), if_pos ⟨hres, hlt⟩]
  simp

/-- The reserved words of a heap that was just placed are the arena's. -/
theorem word_fresh_reserved (words : Vector Word L.size) {j : Nat} (hj : j < L.reserved) :
    (fresh L words).word j = words[j]?.getD 0 := by
  have hres : L.reserved ≤ L.heapStart := Nat.le_add_right ..
  rw [word_fresh, if_neg (by rw [Layout.firstBlock]; omega), if_neg (by omega), if_neg (by omega)]

/-- The first header of a heap that was just placed is that of one free block. -/
theorem header_fresh (L : Layout) (words : Vector Word L.size) :
    (fresh L words).word (L.firstBlock - Header.words) =
      Header.ofSize Tag.free (L.heap - Header.words) := by
  have hfirst : L.firstBlock - Header.words = L.heapStart := rfl
  rw [hfirst, word_fresh, if_neg (by rw [Layout.firstBlock, Header.words]; omega), if_pos rfl]

theorem sizeOf_fresh (L : Layout) (words : Vector Word L.size) :
    (fresh L words).sizeOf L.firstBlock = L.heap - Header.words := by
  rw [sizeOf, header_fresh, Header.size_ofSize _ (Nat.sub_le_iff_le_add'.2 L.recordable)]

theorem tagOf_fresh (L : Layout) (words : Vector Word L.size) :
    (fresh L words).tagOf L.firstBlock = Tag.free := by
  rw [tagOf, header_fresh, Header.tag_ofSize _ (Nat.sub_le_iff_le_add'.2 L.recordable)]

theorem info_fresh (L : Layout) (words : Vector Word L.size) :
    (fresh L words).info L.firstBlock = ⟨L.firstBlock, Tag.free, L.heap - Header.words, false⟩ := by
  rw [info, tagOf_fresh, sizeOf_fresh, bit_fresh L words L.inHeap_firstBlock.hasBit]

theorem freeOf_fresh (L : Layout) (words : Vector Word L.size) :
    (fresh L words).freeOf [L.firstBlock] = [L.firstBlock] := by
  simp [freeOf, bit_fresh L words L.inHeap_firstBlock.hasBit]

/-- A heap that was just placed is one free block. -/
theorem ordered_fresh (L : Layout) (words : Vector Word L.size) :
    (fresh L words).Ordered [L.firstBlock] := by
  have hfits := L.fits
  refine ⟨⟨rfl, ?minSize, ?stop⟩, ?mem_of_bit, ?tagOf_free, ?links, ?apart, ?heads_null⟩
  case minSize =>
    rw [sizeOf_fresh, Header.minSize]
    rw [Header.words, Header.minSize] at *
    omega
  case stop =>
    show L.firstBlock + (fresh L words).sizeOf L.firstBlock = L.heapEnd
    rw [sizeOf_fresh]
    simp only [Layout.firstBlock, Layout.heapEnd, Layout.size, Layout.heapStart] at *
    omega
  case mem_of_bit =>
    intro i hi hset
    rw [bit_fresh L words hi] at hset
    exact Bool.noConfusion hset
  case tagOf_free =>
    intro b hb _
    rw [List.mem_singleton] at hb
    rw [hb, tagOf_fresh]
  case links =>
    rw [freeOf_fresh]
    refine ⟨get_set_self _ commonList _, ?_⟩
    show (fresh L words).word L.firstBlock = VAddr.null
    rw [word_fresh, if_pos rfl]
  case apart =>
    intro b hb c hc hnext
    rw [List.mem_singleton] at hb hc
    -- There is only one block.
    rw [hb, hc, Header.words] at hnext
    omega
  case heads_null =>
    intro n hn
    show (Vector.set _ commonList _ commonList.isLt).get n = VAddr.null
    rw [get_set_ne _ hn]
    show (Vector.replicate listCount VAddr.null)[n.val] = VAddr.null
    exact Vector.getElem_replicate n.isLt

end Heap

end ArenaHeap
