import ArenaHeap.Proofs.Collecting
import ArenaHeap.Proofs.FirstFit

namespace ArenaHeap

/-!
# What a request leaves

A request that is served takes the lowest free block that is large enough; one that is refused
leaves the heap as it was or, if it was allowed to collect, as the collection left it.

* `Heap.Granted` — what a served request makes of a heap.
* `Heap.Ordered.tryAllocate_cases`, `Heap.Ordered.allocate_cases` — what a request can come to.
-/

variable {L : Layout}

namespace Heap

/-- What handing out a block for a request makes of a heap `h` with blocks `blocks`: the heap
    `h'` with blocks `after`. -/
structure Granted (h : Heap L) (blocks : List Nat) (tag : Tag) (size : Nat) (g : Grant)
    (h' : Heap L) (after : List Nat) : Prop where
  ordered : h'.Ordered after
  /-- The block is made of a free one, from its start on. -/
  mem_before : g.block ∈ blocks
  free_before : h.bit g.block = false
  size_le_before : g.size ≤ h.sizeOf g.block
  /-- No free block in front of it is large enough. -/
  lowest : ∀ b ∈ blocks, h.bit b = false → requestSize size ≤ h.sizeOf b → g.block ≤ b
  mem_after : g.block ∈ after
  tag_eq : g.tag = tag
  tagOf_eq : h'.tagOf g.block = g.tag
  sizeOf_eq : h'.sizeOf g.block = g.size
  size_le : requestSize size ≤ g.size
  /-- No other bit changes. -/
  bit_eq : ∀ i, L.HasBit i → h'.bit i = (decide (g.block = i) || h.bit i)
  /-- No word changes but bits and words of free blocks. -/
  word_eq : ∀ j, j < L.reserved ∨ L.heapStart ≤ j →
    (∀ c ∈ blocks, h.bit c = false → ¬ h.Covers c j) → h'.word j = h.word j

/-- No free block is large enough for a request. -/
def Exhausted (h : Heap L) (blocks : List Nat) (size : Nat) : Prop :=
  ∀ b ∈ blocks, h.bit b = false → h.sizeOf b < requestSize size

variable {h h' : Heap L} {blocks front back after : List Nat} {tag : Tag} {size : Nat}
  {fit : Fit} {g : Grant} {roots : Roots}

/-! ### A request without a collection -/

/-- Blocks behind a fitting one on the list have higher addresses, those in front are too
    small. -/
theorem Fitting.lowest (ho : h.Ordered blocks)
    (hf : h.Fitting blocks (requestSize size) fit front back) {b : Nat} (hb : b ∈ blocks)
    (hfree : h.bit b = false) (hsize : requestSize size ≤ h.sizeOf b) : fit.block ≤ b := by
  have hsorted : (h.freeOf blocks).Pairwise (· < ·) := ho.tiles.sorted.filter _
  have hmem : b ∈ h.freeOf blocks := mem_freeOf.2 ⟨hb, hfree⟩
  rw [hf.free_eq] at hsorted hmem
  rcases List.mem_append.1 hmem with hfront | hmem
  · exact absurd (hf.front_lt b hfront) (Nat.not_lt.2 hsize)
  · rcases List.mem_cons.1 hmem with rfl | hback
    · exact Nat.le_refl _
    · have hrest := (List.pairwise_append.1 hsorted).2.1
      exact Nat.le_of_lt ((List.pairwise_cons.1 hrest).1 b hback)

/-- An award is what a served request makes of a heap. -/
theorem Fitting.granted (ho : h.Ordered blocks)
    (hf : h.Fitting blocks (requestSize size) fit front back) (tag : Tag) :
    ∃ after, Granted h blocks tag size (h.grantOf tag (requestSize size) fit)
      (h.awarded tag (requestSize size) fit) after := by
  have hpos : 1 ≤ requestSize size := Nat.le_max_right ..
  have hsize := hf.size_le
  obtain ⟨after, hafter, hmem⟩ : ∃ after, (h.awarded tag (requestSize size) fit).Ordered after ∧
      fit.block ∈ after := ho.awarded hf hpos
  refine ⟨after, hafter, hf.mem_free.1, hf.mem_free.2, ?size_le_before, ?lowest, hmem, rfl,
    ?tagOf_eq, ?sizeOf_eq, ?size_le, ?bit_eq, ?word_eq⟩
  case size_le_before =>
    show (if h.Splits (requestSize size) fit then _ else _) ≤ h.sizeOf fit.block
    split
    · exact hsize
    · exact Nat.le_refl _
  case lowest =>
    exact fun b hb hfree hle => hf.lowest ho hb hfree hle
  case tagOf_eq =>
    exact ho.tagOf_awarded hf hpos
  case sizeOf_eq =>
    exact ho.sizeOf_awarded hf hpos
  case size_le =>
    show requestSize size ≤ if h.Splits (requestSize size) fit then _ else _
    split
    · exact Nat.le_refl _
    · exact hsize
  case bit_eq =>
    exact fun i hi => hf.bit_awarded ho hi
  case word_eq =>
    exact fun j hj hused => ho.word_awarded hf hj hused

/-- **What a request can come to.** Either every free block is too small and nothing happens, or
    the lowest that is large enough is handed out. -/
theorem Ordered.tryAllocate_cases (ho : h.Ordered blocks) (tag : Tag) (size : Nat) :
    (HeapM.tryAllocate tag size h = (.ok none, h) ∧ Exhausted h blocks size) ∨
    ∃ g h' after, HeapM.tryAllocate tag size h = (.ok (some g), h') ∧
      Granted h blocks tag size g h' after := by
  cases hfit : h.firstFit (requestSize size) none (h.freeOf blocks) with
  | none =>
    refine .inl ⟨HeapM.tryAllocate_eq_none ho hfit, fun b hb hclear => ?_⟩
    exact firstFit_eq_none_iff.1 hfit b (mem_freeOf.2 ⟨hb, hclear⟩)
  | some fit =>
    obtain ⟨front, back, hf⟩ := Fitting.of_firstFit hfit
    obtain ⟨after, hgranted⟩ := hf.granted ho tag
    exact .inr ⟨_, _, after, HeapM.tryAllocate_eq_some ho hfit hf, hgranted⟩

/-! ### A request that may collect -/

/-- A second attempt that is refused tells what is free. -/
theorem Collected.retry_of_none {m : Heap L} {mid : List Nat} (hc : Collected h roots blocks m mid)
    (hrun : HeapM.tryAllocate tag size m = (.ok none, m)) : m.retry tag size =
      (.ok (.error (.outOfMemory size ((m.freeOf mid).map m.sizeOf).sum)), m.countFailure) := by
  -- Counting the failure changes no word, so the usage is that of the heap collected.
  have hcount : Collected h roots blocks m.countFailure mid := hc.of_words rfl rfl
  rw [retry, hrun]
  simp only [hcount.ordered.usage_of_tagged hcount.tagged]
  rfl

theorem retry_of_granted {m : Heap L}
    (hrun : HeapM.tryAllocate tag size m = (.ok (some g), h')) :
    m.retry tag size = (.ok (.ok g), h') := by
  rw [retry, hrun]

/-- What the second attempt at a request can come to. -/
theorem Collected.retry_cases {m : Heap L} {mid : List Nat}
    (hc : Collected h roots blocks m mid) (tag : Tag) (size : Nat) :
    (m.retry tag size = (.ok (.error (.outOfMemory size ((m.freeOf mid).map m.sizeOf).sum)),
        m.countFailure) ∧ Exhausted m mid size) ∨
    ∃ g h' after, m.retry tag size = (.ok (.ok g), h') ∧ Granted m mid tag size g h' after := by
  rcases hc.ordered.tryAllocate_cases tag size with ⟨hrun, hfull⟩ | ⟨g, h', after, hrun, hgranted⟩
  · exact .inl ⟨hc.retry_of_none hrun, hfull⟩
  · exact .inr ⟨g, h', after, retry_of_granted hrun, hgranted⟩

/-- A request with the tag of free blocks is refused before anything else is done. -/
theorem allocate_of_reserved (h : Heap L) (htag : tag = Tag.free) (size : Nat) (roots : Roots) :
    h.allocate tag size roots = (⟨none, .ok (.error (.reservedTag tag))⟩, h) := if_pos htag

/-- A request that is served at once does not collect. -/
theorem allocate_of_granted (htag : tag ≠ Tag.free)
    (hrun : HeapM.tryAllocate tag size h = (.ok (some g), h')) :
    h.allocate tag size roots = (⟨none, .ok (.ok g)⟩, h') := by
  rw [Heap.allocate, if_neg htag, hrun]

/-- A request for which all free blocks are too small collects and is tried once more. -/
theorem allocate_of_collected {traces : List RootTrace} {r : SweepReport} {m : Heap L}
    (htag : tag ≠ Tag.free) (hrun : HeapM.tryAllocate tag size h = (.ok none, h))
    (hcollect : h.collect roots = (⟨traces, .ok r⟩, m)) : h.allocate tag size roots =
      (⟨some ⟨traces, .ok r⟩, (m.retry tag size).1⟩, (m.retry tag size).2) := by
  rw [Heap.allocate, if_neg htag, hrun]
  simp only [hcollect]

/-- **What a request that may collect can come to.** It is served at once, or all free blocks are
    too small and it collects; then it is served after all, or refused with an account of what is
    free. -/
theorem Ordered.allocate_cases (ho : h.Ordered blocks) (hroots : roots.Regular L)
    (htag : tag ≠ Tag.free) (size : Nat) :
    (∃ g h' after, h.allocate tag size roots = (⟨none, .ok (.ok g)⟩, h') ∧
      Granted h blocks tag size g h' after) ∨
    ∃ traces r m mid, h.collect roots = (⟨traces, .ok r⟩, m) ∧
      Collected h roots blocks m mid ∧ Exhausted h blocks size ∧
      ((h.allocate tag size roots = (⟨some ⟨traces, .ok r⟩, .ok (.error (.outOfMemory size
          ((m.freeOf mid).map m.sizeOf).sum))⟩, m.countFailure) ∧ Exhausted m mid size) ∨
        ∃ g h' after, h.allocate tag size roots = (⟨some ⟨traces, .ok r⟩, .ok (.ok g)⟩, h') ∧
          Granted m mid tag size g h' after) := by
  rcases ho.tryAllocate_cases tag size with ⟨hrun, hfull⟩ | ⟨g, h', after, hrun, hgranted⟩
  · obtain ⟨traces, r, m, mid, _, hcollect, hc, _⟩ := ho.collect hroots
    refine .inr ⟨traces, r, m, mid, hcollect, hc, hfull, ?_⟩
    rw [allocate_of_collected htag hrun hcollect]
    rcases hc.retry_cases tag size with ⟨hretry, hfull'⟩ | ⟨g, h', after, hretry, hgranted⟩
    · exact .inl ⟨by rw [hretry], hfull'⟩
    · exact .inr ⟨g, h', after, by rw [hretry], hgranted⟩
  · exact .inl ⟨g, h', after, allocate_of_granted htag hrun, hgranted⟩

end Heap

end ArenaHeap
