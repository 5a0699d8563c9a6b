import ArenaHeap.Proofs.Representation

namespace ArenaHeap

/-!
# Looking a block up by its address

A word of a payload refers to a block by its address. `Layout.blockAt` turns such an address into a
pointer, and whoever is given a pointer asks `Layout.blockIndex` whether it is that of a block. Both
go by the bounds of the heap alone. They differ at one place: the heap's first word is a header, and
`Layout.blockAt` gives a pointer to it that no operation on blocks takes.

* `Layout.blockIndex_cases`, `Layout.blockAt_eq` — what the two tests let pass.
* `Heap.accepts_iff`, `Heap.rejects_iff` — the operations on blocks all go by the first test.
* `Heap.lookup_exact` — where the two agree.
-/

variable {L : Layout}

/-! ### Two tests -/

namespace Pointer

/-- An address as a pointer is cut to the same address. -/
@[simp] theorem vaddr_ofVAddr (v : VAddr) : (ofVAddr v).vaddr = v :=
  UInt32.toUInt32_toUInt64 v

/-- The address of a whole word, as a pointer, is a pointer to that word. -/
theorem ofIndex_index {v : VAddr} (hv : v.Aligned) : ofIndex v.index = ofVAddr v := by
  rw [ofIndex, VAddr.index, Nat.div_mul_cancel (Nat.dvd_of_mod_eq_zero hv), ofVAddr,
    ← UInt32.toNat_toUInt64, UInt64.ofNat_toNat]

theorem ofVAddr_ofIndex {i : Nat} (hi : i < 1 <<< 30) : ofVAddr (.ofIndex i) = ofIndex i := by
  rw [← ofIndex_index (VAddr.aligned_ofIndex hi), VAddr.index_ofIndex hi]

theorem vaddr_ofIndex {i : Nat} (hi : i < 1 <<< 30) : (ofIndex i).vaddr = .ofIndex i := by
  rw [← ofVAddr_ofIndex hi, vaddr_ofVAddr]

/-- An address names a word of an arena just if it is aligned and its index is one of the arena. -/
theorem index?_ofVAddr (v : VAddr) (words : Nat) : (ofVAddr v).index? words =
    if v.Aligned ∧ v.index < words then some v.index else none := by
  have hoffset : (ofVAddr v).offset.toNat = v.toNat := UInt32.toNat_toUInt64 v
  have hlt : v.Aligned ∧ v.toNat < words * Word.bytes ↔ v.Aligned ∧ v.index < words := by
    rw [VAddr.Aligned, VAddr.index, Word.bytes]
    omega
  rw [index?, hoffset]
  exact if_congr hlt rfl rfl

end Pointer

namespace Layout

/-- The index of a payload word: any heap word but the first, which is a header. -/
def InPayloads (L : Layout) (i : Nat) : Prop := L.heapStart < i ∧ i < L.heapEnd

instance (L : Layout) (i : Nat) : Decidable (L.InPayloads i) := inferInstanceAs (Decidable (_ ∧ _))

/-- A pointer passes for that of a block just if it names a word behind the heap's first. -/
theorem blockIndex_cases (L : Layout) (p : Pointer) :
    (∃ i, p.index? L.size = some i ∧ L.InPayloads i ∧ L.blockIndex p = .ok i) ∨
    ((∀ i, p.index? L.size = some i → ¬ L.InPayloads i) ∧
      L.blockIndex p = .error .notABlock) := by
  unfold blockIndex
  cases hi : p.index? L.size with
  | none => exact .inr ⟨nofun, rfl⟩
  | some i =>
    by_cases hin : L.InPayloads i
    · exact .inl ⟨i, rfl, hin, if_pos hin⟩
    · exact .inr ⟨fun j hj => Option.some.inj hj ▸ hin, if_neg hin⟩

/-- An address is looked up just if it names a word of the heap, the first included. -/
theorem blockAt_eq (L : Layout) (v : VAddr) : L.blockAt v =
    if v.Aligned ∧ L.InHeap v.index then some (.ofVAddr v) else none := by
  have hspans : L.Spans v ∧ v.Aligned ↔ v.Aligned ∧ L.InHeap v.index := by
    refine ⟨fun ⟨hv, ha⟩ => ⟨ha, hv.inHeap ha⟩, fun ⟨ha, hi⟩ => ⟨?_, ha⟩⟩
    rw [← VAddr.ofIndex_index ha]
    exact (spans_ofIndex hi.lt).2 hi
  rw [blockAt, if_congr hspans rfl rfl]
  by_cases hv : v.Aligned ∧ L.InHeap v.index
  · rw [if_pos hv, if_pos hv, Pointer.ofIndex_index hv.1]
  · rw [if_neg hv, if_neg hv]

/-- The heap's first word is the one that only one of the tests lets pass. -/
theorem inHeap_iff {i : Nat} : L.InHeap i ↔ L.InPayloads i ∨ i = L.heapStart := by
  have := L.fits
  simp only [InHeap, InPayloads, heapEnd, size, heapStart, Header.words] at *
  omega

end Layout

/-! ### Operations on blocks -/

namespace Heap

/-- Every operation on a block rejects the pointer as that of none. -/
structure Rejects (h : Heap L) (p : Pointer) : Prop where
  blockSize : h.blockSize p = .error .notABlock
  blockTag : h.blockTag p = .error .notABlock
  payload : h.payload p = .error .notABlock
  store : ∀ k w, HeapM.store p k w h = (.error .notABlock, h)
  fill : ∀ w, HeapM.fill p w h = (.error .notABlock, h)

/-- No operation on a block rejects the pointer as that of none. -/
structure Accepts (h : Heap L) (p : Pointer) : Prop where
  blockSize : h.blockSize p ≠ .error .notABlock
  blockTag : h.blockTag p ≠ .error .notABlock
  payload : h.payload p ≠ .error .notABlock
  store : ∀ k w, (HeapM.store p k w h).1 ≠ .error .notABlock
  fill : ∀ w, (HeapM.fill p w h).1 ≠ .error .notABlock

variable {h : Heap L} {p : Pointer} {i : Nat}

theorem rejects_of_blockIndex (h : Heap L) (hi : L.blockIndex p = .error .notABlock) :
    h.Rejects p := by
  have hrange : h.payloadRange p = .error .notABlock := by
    rw [payloadRange, hi]
    rfl
  have hask : HeapM.ask (·.payloadRange p) h = (.error .notABlock, h) :=
    HeapM.ask_eq_error hrange
  refine ⟨?_, ?_, ?_, fun k w => ?_, fun w => ?_⟩
  · rw [blockSize, hi]
    rfl
  · rw [blockTag, hi]
    rfl
  · rw [payload, hrange]
    rfl
  · rw [HeapM.store, HeapM.bind_error hask]
  · rw [HeapM.fill, HeapM.bind_error hask]

/-- Of the payload of an accepted pointer nothing can be wrong but that it is longer than the rest
    of the arena. -/
theorem payloadRange_cases (h : Heap L) (hi : L.blockIndex p = .ok i) (hin : L.InPayloads i) :
    (h.payloadRange p = .ok (i, h.sizeOf i) ∧ i + h.sizeOf i ≤ L.size) ∨
      h.payloadRange p = .error .wordOutside := by
  have hlow := hin.1
  have hhigh : i < L.size := hin.2
  rw [h.payloadRange_of_blockIndex hi (by omega) (Nat.le_of_lt hhigh)]
  by_cases hfits : i + h.sizeOf i ≤ L.size
  · exact .inl ⟨if_pos hfits, hfits⟩
  · exact .inr (if_neg hfits)

theorem accepts_of_blockIndex (h : Heap L) (hi : L.blockIndex p = .ok i) (hin : L.InPayloads i) :
    h.Accepts p := by
  have hlow := hin.1
  have hhigh : i < L.size := hin.2
  have hsize : h.blockSize p = .ok (h.sizeOf i) := by
    rw [blockSize, hi]
    exact h.sizeAt_eq_ok (by omega) (Nat.le_of_lt hhigh)
  have htag : h.blockTag p = .ok (h.tagOf i) := by
    rw [blockTag, hi]
    exact h.tagAt_eq_ok (by omega) (Nat.le_of_lt hhigh)
  refine ⟨by simp [hsize], by simp [htag], ?payload, fun k w => ?store, fun w => ?fill⟩
  all_goals rcases h.payloadRange_cases hi hin with ⟨hrange, hfits⟩ | hrange
  case payload.inl =>
    rw [payload, hrange]
    show h.slice i (h.sizeOf i) ≠ _
    rw [h.slice_eq_ok hfits]
    intro hfault
    cases hfault
  case payload.inr =>
    rw [payload, hrange]
    intro hfault
    cases hfault
  case store.inl =>
    rw [HeapM.store, HeapM.bind_apply (HeapM.ask_eq_ok hrange)]
    show ((if k < h.sizeOf i then _ else _ : HeapM L Bool) h).1 ≠ _
    split <;>
    · intro hfault
      cases hfault
  case store.inr =>
    rw [HeapM.store, HeapM.bind_error (HeapM.ask_eq_error hrange)]
    intro hfault
    cases hfault
  case fill.inl =>
    rw [HeapM.fill, HeapM.bind_apply (HeapM.ask_eq_ok hrange)]
    intro hfault
    cases hfault
  case fill.inr =>
    rw [HeapM.fill, HeapM.bind_error (HeapM.ask_eq_error hrange)]
    intro hfault
    cases hfault

theorem not_accepts_of_rejects (hr : h.Rejects p) : ¬ h.Accepts p :=
  fun ha => ha.blockSize hr.blockSize

/-- The operations on blocks agree about every pointer: they accept it just if it names a word
    behind the heap's first. -/
theorem accepts_iff (h : Heap L) (p : Pointer) :
    h.Accepts p ↔ ∃ i, p.index? L.size = some i ∧ L.InPayloads i := by
  rcases L.blockIndex_cases p with ⟨i, hi, hin, hindex⟩ | ⟨hout, hindex⟩
  · exact iff_of_true (h.accepts_of_blockIndex hindex hin) ⟨i, hi, hin⟩
  · refine iff_of_false (not_accepts_of_rejects (h.rejects_of_blockIndex hindex)) ?_
    rintro ⟨i, hi, hin⟩
    exact hout i hi hin

/-- Those that one of them rejects all of them reject. -/
theorem rejects_iff (h : Heap L) (p : Pointer) : h.Rejects p ↔ ¬ h.Accepts p := by
  refine ⟨not_accepts_of_rejects, fun hnot => ?_⟩
  rcases L.blockIndex_cases p with ⟨i, _, hin, hindex⟩ | ⟨_, hindex⟩
  · exact absurd (h.accepts_of_blockIndex hindex hin) hnot
  · exact h.rejects_of_blockIndex hindex

theorem accepts_ofVAddr_iff (h : Heap L) (v : VAddr) :
    h.Accepts (.ofVAddr v) ↔ v.Aligned ∧ L.InPayloads v.index := by
  rw [accepts_iff, Pointer.index?_ofVAddr]
  constructor
  · rintro ⟨i, hi, hin⟩
    obtain ⟨⟨ha, _⟩, hindex⟩ := Option.ite_none_right_eq_some.1 hi
    exact ⟨ha, Option.some.inj hindex ▸ hin⟩
  · rintro ⟨ha, hin⟩
    exact ⟨_, if_pos ⟨ha, hin.2⟩, hin⟩

/-! ### Where the two tests agree -/

/-- An address is that of a block by both tests. -/
def Finds (h : Heap L) (v : VAddr) : Prop :=
  L.blockAt v = some (.ofVAddr v) ∧ h.Accepts (.ofVAddr v)

/-- An address is looked up just if the operations on blocks accept it or it is that of the heap's
    first word. -/
theorem isSome_blockAt_iff (h : Heap L) (v : VAddr) :
    (L.blockAt v).isSome ↔ v.Aligned ∧ (h.Accepts (.ofVAddr v) ∨ v = L.lowest) := by
  have hstart : L.InHeap L.heapStart := Layout.inHeap_iff.2 (.inr rfl)
  have hlowest : v.Aligned → (v = L.lowest ↔ v.index = L.heapStart) := by
    refine fun ha => ⟨?_, fun hindex => ?_⟩
    · rintro rfl
      exact VAddr.index_ofIndex hstart.lt
    · rw [← VAddr.ofIndex_index ha, hindex]
      rfl
  rw [L.blockAt_eq, Option.isSome_ite, accepts_ofVAddr_iff, Layout.inHeap_iff]
  constructor
  · rintro ⟨ha, hin | hfirst⟩
    · exact ⟨ha, .inl ⟨ha, hin⟩⟩
    · exact ⟨ha, .inr ((hlowest ha).2 hfirst)⟩
  · rintro ⟨ha, ⟨_, hin⟩ | hfirst⟩
    · exact ⟨ha, .inl hin⟩
    · exact ⟨ha, .inr ((hlowest ha).1 hfirst)⟩

/-- Every payload word is found by its address. -/
theorem finds_ofIndex (h : Heap L) {i : Nat} (hi : L.InPayloads i) : h.Finds (.ofIndex i) := by
  have hin : L.InHeap i := Layout.inHeap_iff.2 (.inl hi)
  have ha : (VAddr.ofIndex i).Aligned := VAddr.aligned_ofIndex hin.lt
  have hindex : (VAddr.ofIndex i).index = i := VAddr.index_ofIndex hin.lt
  refine ⟨?_, (h.accepts_ofVAddr_iff _).2 ⟨ha, hindex.symm ▸ hi⟩⟩
  rw [L.blockAt_eq, if_pos ⟨ha, hindex.symm ▸ hin⟩]

/-- The heap's first word is looked up, and then no operation takes it. -/
theorem lowest_rejected (h : Heap L) :
    L.blockAt L.lowest = some (.ofVAddr L.lowest) ∧ h.Rejects (.ofVAddr L.lowest) := by
  have hstart : L.InHeap L.heapStart := Layout.inHeap_iff.2 (.inr rfl)
  have ha : L.lowest.Aligned := VAddr.aligned_ofIndex hstart.lt
  have hindex : L.lowest.index = L.heapStart := VAddr.index_ofIndex hstart.lt
  constructor
  · rw [L.blockAt_eq, if_pos ⟨ha, hindex.symm ▸ hstart⟩]
  · rw [rejects_iff, accepts_ofVAddr_iff, hindex]
    exact fun hin => Nat.lt_irrefl _ hin.2.1

variable {blocks : List Nat}

theorem Ordered.inPayloads (ho : h.Ordered blocks) {b : Nat} (hb : b ∈ blocks) :
    L.InPayloads b :=
  ⟨(ho.bounds hb).1, (ho.inHeap hb).2⟩

/-- **Looking up an address.** What is looked up is the pointer that the address is cut from. The
    operations on blocks agree about which pointers they take, and an aligned address is looked up
    just if they take it, but for that of the heap's first word. In regular use every block is found
    by its address, and so is every entry of a list of free blocks. -/
theorem lookup_exact (h : Heap L) :
    (∀ p, h.Rejects p ↔ ¬ h.Accepts p) ∧
    (∀ v p, L.blockAt v = some p → p = .ofVAddr v ∧ p.vaddr = v) ∧
    (∀ v, (L.blockAt v).isSome ↔ v.Aligned ∧ (h.Accepts (.ofVAddr v) ∨ v = L.lowest)) ∧
    (L.blockAt L.lowest = some (.ofVAddr L.lowest) ∧ h.Rejects (.ofVAddr L.lowest)) ∧
    (h.Reached →
      (∀ b, h.Allocated b → L.blockAt (Pointer.ofIndex b).vaddr = some (.ofIndex b)) ∧
      (∀ n < listCount, ∃ entries, h.freeList n = .ok entries ∧ ∀ v ∈ entries, h.Finds v) ∧
      ∃ found, h.blocks = .ok found ∧ ∀ b ∈ found, h.Finds b.vaddr) := by
  refine ⟨h.rejects_iff, fun v p hp => ?pointer, h.isSome_blockAt_iff, h.lowest_rejected,
    fun hr => ?reached⟩
  case pointer =>
    rw [L.blockAt_eq] at hp
    obtain ⟨_, hp⟩ := Option.ite_none_right_eq_some.1 hp
    cases hp
    exact ⟨rfl, Pointer.vaddr_ofVAddr v⟩
  case reached =>
    obtain ⟨blocks, ho⟩ := hr.ordered
    refine ⟨fun b hb => ?_, fun n hn => ?_, ?_⟩
    · rw [Pointer.vaddr_ofIndex hb.1.lt, ← Pointer.ofVAddr_ofIndex hb.1.lt]
      exact (h.finds_ofIndex (ho.inPayloads (ho.allocated_iff.1 hb).1)).1
    · by_cases hcommon : n = commonList
      · subst hcommon
        refine ⟨_, ho.freeList, fun v hv => ?_⟩
        obtain ⟨b, hb, rfl⟩ := List.mem_map.1 (List.mem_toArray.1 hv)
        exact h.finds_ofIndex (ho.inPayloads (mem_freeOf.1 hb).1)
      · refine ⟨#[], ho.freeList_of_ne (n := ⟨n, hn⟩) ?_, nofun⟩
        exact fun heq => hcommon (congrArg Fin.val heq)
    · refine ⟨_, h.blocks_eq_ok (tiles_iff.2 ho.tiles), fun info hinfo => ?_⟩
      obtain ⟨b, hb, rfl⟩ := List.mem_map.1 (List.mem_toArray.1 hinfo)
      exact h.finds_ofIndex (ho.inPayloads hb)

/-- Behind one reserved word and one word of bits the address 8 is looked up, and no operation takes
    the pointer; all blocks and entries of such a heap are found. -/
theorem lookup_exact_small :
    small.Reached ∧ (Layout.small.blockAt 8).isSome ∧ small.Rejects (.ofVAddr 8) ∧
      (∃ entries, small.freeList commonList = .ok entries ∧ ∀ v ∈ entries, small.Finds v) ∧
      ∃ found, small.blocks = .ok found ∧ ∀ b ∈ found, small.Finds b.vaddr := by
  obtain ⟨_, _, hsome, ⟨_, hrejected⟩, hreached⟩ := lookup_exact small
  obtain ⟨_, hentries, hfound⟩ := hreached reached_small
  exact ⟨reached_small, (hsome 8).2 ⟨by decide, .inr rfl⟩, hrejected,
    hentries commonList (by decide), hfound⟩

/-- So not in every heap that can be placed does an operation take whatever is looked up. -/
theorem not_blockAt_iff_accepts :
    ¬ ∀ (a : Arena) (start : Pointer) (L : Layout) (h : Heap L), a.intoHeap start = .ok ⟨L, h⟩ →
      ∀ v, (L.blockAt v).isSome ↔ v.Aligned ∧ h.Accepts (.ofVAddr v) := by
  intro hall
  have hiff := hall _ _ _ _ Arena.intoHeap_small 8
  have hsize : small.blockSize (.ofVAddr 8) = .error .notABlock := by decide +kernel
  exact (hiff.1 (by decide)).2.blockSize hsize

end Heap

end ArenaHeap
