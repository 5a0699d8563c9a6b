import ArenaHeap.Proofs.Ordered

namespace ArenaHeap

/-!
# What the walk adds up

`Heap.usage` tells free blocks from used ones by their tags; the allocator tells them apart by the
list of free blocks, and the collector by their bits. On a heap in order the three agree but for
the blocks that are in use and yet tagged as free.

* `Heap.usage_eq_ok` — the usage of a heap with a tiling, by tags.
* `Heap.TilesTo.sum_words`, `Heap.blockWords_eq` — headers and payloads of a tiling make up its
  words.
* `Heap.Ordered.markedFree_perm`, `Heap.Ordered.usedOf_perm` — tags and bits compared.
* `Heap.bitCount_eq_length` — the bits that are set are counted by any list of the allocated blocks.
-/

variable {L : Layout}

/-! ### Adding up -/

/-- Adding blocks to a usage counts them by their tag. -/
theorem Usage.foldl_add (found : List BlockInfo) (u : Usage) :
    found.foldl Usage.add u = { u with
      freeBlocks := u.freeBlocks + (found.filter fun b => b.isFree).length
      freeWords := u.freeWords + ((found.filter fun b => b.isFree).map BlockInfo.size).sum
      usedBlocks := u.usedBlocks + (found.filter fun b => !b.isFree).length
      usedWords := u.usedWords + ((found.filter fun b => !b.isFree).map BlockInfo.size).sum } := by
  induction found generalizing u with
  | nil => rfl
  | cons b bs ih =>
    rw [List.foldl_cons, ih, Usage.add]
    cases hb : b.isFree with
    | true => simp [hb, Nat.add_assoc, Nat.add_comm 1]
    | false => simp [hb, Nat.add_assoc, Nat.add_comm 1]

namespace Heap

/-- The blocks whose header marks them as free. -/
def markedFree (h : Heap L) (blocks : List Nat) : List Nat :=
  blocks.filter fun b => h.tagOf b == Tag.free

/-- The blocks with any other tag. -/
def markedUsed (h : Heap L) (blocks : List Nat) : List Nat :=
  blocks.filter fun b => !(h.tagOf b == Tag.free)

/-- The blocks whose bit is set. -/
def usedOf (h : Heap L) (blocks : List Nat) : List Nat := blocks.filter h.bit

/-- The blocks that are in use and marked as free all the same. -/
def disguisedOf (h : Heap L) (blocks : List Nat) : List Nat := h.markedFree (h.usedOf blocks)

/-- No allocated block has the tag of free blocks. -/
def Tagged (h : Heap L) : Prop := ∀ b, h.Allocated b → h.tagOf b ≠ Tag.free

variable {h : Heap L} {start stop : Nat} {blocks : List Nat}

/-- The usage of a heap whose blocks tile it. -/
theorem usage_eq_ok (ht : h.TilesTo L.heapStart blocks L.heapEnd) : h.usage = .ok {
    reservedWords := L.reserved
    bitmapWords := L.bitmap
    heapWords := L.heap
    freeBlocks := (h.markedFree blocks).length
    freeWords := ((h.markedFree blocks).map h.sizeOf).sum
    usedBlocks := (h.markedUsed blocks).length
    usedWords := ((h.markedUsed blocks).map h.sizeOf).sum } := by
  rw [usage, h.blocks_eq_ok (tiles_iff.2 ht)]
  show Except.ok (Array.foldl _ _ _ _ _) = _
  rw [List.foldl_toArray, Usage.foldl_add]
  simp only [List.filter_map, List.map_map, List.length_map, Nat.zero_add]
  rfl

/-- Headers and payloads of a tiling make up all words between its ends. -/
theorem TilesTo.sum_words (ht : h.TilesTo start blocks stop) :
    start + ((blocks.map h.sizeOf).sum + blocks.length * Header.words) = stop := by
  induction blocks generalizing start with
  | nil => exact ht
  | cons b bs ih =>
    obtain ⟨hb, _, hrest⟩ := ht
    have hsum := ih hrest
    rw [Header.words] at *
    simp only [List.map_cons, List.sum_cons, List.length_cons]
    omega

/-- So what the walk adds up makes up the words of the heap. -/
theorem blockWords_eq (ht : h.TilesTo L.heapStart blocks L.heapEnd) {u : Usage}
    (hu : h.usage = .ok u) : u.blockWords = L.heap := by
  rw [usage_eq_ok ht] at hu
  cases hu
  have hend : L.heapEnd = L.heapStart + L.heap := rfl
  have hperm : (h.markedFree blocks ++ h.markedUsed blocks).Perm blocks :=
    List.filter_append_perm ..
  have hlength := hperm.length_eq
  have hsum := (hperm.map h.sizeOf).sum_eq
  have hwords := ht.sum_words
  rw [List.length_append] at hlength
  rw [List.map_append, List.sum_append] at hsum
  simp only [Usage.blockWords, hlength, hsum]
  omega

/-! ### Tags and bits -/

theorem mem_usedOf {b : Nat} : b ∈ h.usedOf blocks ↔ b ∈ blocks ∧ h.bit b = true :=
  List.mem_filter

theorem mem_markedFree {b : Nat} :
    b ∈ h.markedFree blocks ↔ b ∈ blocks ∧ h.tagOf b = Tag.free := by
  simp [markedFree]

namespace Ordered

variable (ho : h.Ordered blocks)

include ho

/-- Adding up the blocks meets no fault. -/
theorem exists_usage : ∃ u, h.usage = .ok u := ⟨_, usage_eq_ok ho.tiles⟩

theorem mem_usedOf_iff {b : Nat} : b ∈ h.usedOf blocks ↔ h.Allocated b :=
  mem_usedOf.trans ho.allocated_iff.symm

theorem mem_disguisedOf_iff {b : Nat} :
    b ∈ h.disguisedOf blocks ↔ h.Allocated b ∧ h.tagOf b = Tag.free := by
  rw [disguisedOf, mem_markedFree, ho.mem_usedOf_iff]

/-- The blocks marked as free are those on the list and, besides, the disguised ones. -/
theorem markedFree_perm :
    (h.markedFree blocks).Perm (h.freeOf blocks ++ h.disguisedOf blocks) := by
  have hsplit := List.filter_append_perm (fun b => !h.bit b) (h.markedFree blocks)
  have hfree : (h.markedFree blocks).filter (fun b => !h.bit b) = h.freeOf blocks := by
    rw [markedFree, List.filter_filter]
    refine List.filter_congr fun b hb => ?_
    cases hbit : h.bit b with
    | true => rfl
    | false => simp [ho.tagOf_free b hb hbit]
  have hused : (h.markedFree blocks).filter (fun b => !!h.bit b) = h.disguisedOf blocks := by
    simp only [markedFree, disguisedOf, usedOf, List.filter_filter, Bool.not_not]
    exact List.filter_congr fun b _ => Bool.and_comm ..
  rw [hfree, hused] at hsplit
  exact hsplit.symm

/-- The blocks in use are those not marked as free and, besides, the disguised ones. -/
theorem usedOf_perm :
    (h.usedOf blocks).Perm (h.disguisedOf blocks ++ h.markedUsed blocks) := by
  have hsplit := List.filter_append_perm (fun b => h.tagOf b == Tag.free) (h.usedOf blocks)
  have hused : (h.usedOf blocks).filter (fun b => !(h.tagOf b == Tag.free)) =
      h.markedUsed blocks := by
    rw [usedOf, List.filter_filter]
    refine List.filter_congr fun b hb => ?_
    cases hbit : h.bit b with
    | true => simp
    | false => simp [ho.tagOf_free b hb hbit]
  rw [hused] at hsplit
  exact hsplit.symm

/-- Where no allocated block has the tag of free blocks, tags say the same as bits. -/
theorem isFree_eq_of_tagged (htag : h.Tagged) {b : Nat} (hb : b ∈ blocks) :
    (h.tagOf b == Tag.free) = !h.bit b := by
  cases hbit : h.bit b with
  | true => simpa using htag b ⟨ho.inHeap hb, hbit⟩
  | false => simpa using ho.tagOf_free b hb hbit

/-- So the usage then counts the blocks on the list and those in use. -/
theorem usage_of_tagged (htag : h.Tagged) : h.usage = .ok {
    reservedWords := L.reserved
    bitmapWords := L.bitmap
    heapWords := L.heap
    freeBlocks := (h.freeOf blocks).length
    freeWords := ((h.freeOf blocks).map h.sizeOf).sum
    usedBlocks := (h.usedOf blocks).length
    usedWords := ((h.usedOf blocks).map h.sizeOf).sum } := by
  have hfree : h.markedFree blocks = h.freeOf blocks :=
    List.filter_congr fun b hb => ho.isFree_eq_of_tagged htag hb
  have hused : h.markedUsed blocks = h.usedOf blocks :=
    List.filter_congr fun b hb => by rw [ho.isFree_eq_of_tagged htag hb, Bool.not_not]
  rw [usage_eq_ok ho.tiles, hfree, hused]

end Ordered

/-- The number of set bits is a matter of the bits of heap words. -/
theorem bitCount_congr {h' : Heap L} (hbit : ∀ i, L.InHeap i → h'.bit i = h.bit i) :
    h'.bitCount = h.bitCount := by
  have hend : L.heapEnd = L.heapStart + L.heap := rfl
  refine List.countP_congr fun k hk => ?_
  rw [List.mem_range] at hk
  rw [hbit _ ⟨Nat.le_add_right .., by omega⟩]

/-- The bits that are set are counted by any list of the allocated blocks. -/
theorem bitCount_eq_length {used : List Nat} (hnodup : used.Nodup)
    (hused : ∀ b, b ∈ used ↔ h.Allocated b) : h.bitCount = used.length := by
  have hend : L.heapEnd = L.heapStart + L.heap := rfl
  have hcount : h.bitCount = (((List.range L.heap).filter fun k => h.bit (L.heapStart + k)).map
      (L.heapStart + ·)).length := by
    rw [bitCount, List.countP_eq_length_filter, List.length_map]
  rw [hcount]
  refine List.Perm.length_eq ((List.perm_ext_iff_of_nodup ?_ hnodup).2 fun b => ?_)
  · exact (List.nodup_range.filter _).map fun _ _ hkl => Nat.add_left_cancel hkl
  · rw [hused, List.mem_map]
    constructor
    · rintro ⟨k, hk, rfl⟩
      obtain ⟨hlt, hbit⟩ := List.mem_filter.1 hk
      rw [List.mem_range] at hlt
      exact ⟨⟨Nat.le_add_right .., by omega⟩, hbit⟩
    · rintro ⟨⟨hlow, hhigh⟩, hbit⟩
      refine ⟨b - L.heapStart, List.mem_filter.2 ⟨List.mem_range.2 (by omega), ?_⟩, ?_⟩
      · rw [Nat.add_sub_cancel' hlow]
        exact hbit
      · exact Nat.add_sub_cancel' hlow

theorem Ordered.bitCount_eq (ho : h.Ordered blocks) : h.bitCount = (h.usedOf blocks).length :=
  bitCount_eq_length (ho.tiles.nodup.filter _) fun _ => ho.mem_usedOf_iff

end Heap

end ArenaHeap
