import ArenaHeap.Proofs.RegularUse

namespace ArenaHeap

/-!
# The heap that a sweep leaves is determined by its survivors

Garbage and free space may be cut into blocks in many ways, and the list of free blocks may have
been anything before a sweep. Afterwards there is one way only: each run of words between two
survivors is one free block, and the list runs through these. `BlockInfo.around` computes those
blocks from the survivors alone.

* `Heap.TilesTo.map_info_eq` — a tiling in which no two free blocks are neighbours is what the
  blocks in use make of it.
* `Heap.Rebuilt.walk_eq` — so the block walk after a sweep meets what `Heap.canonical` lists.
* `Heap.sweep_canonical` — the law of the sweep, with its list, its words and its report.
-/

variable {L : Layout}

/-! ### Blocks around others -/

namespace BlockInfo

/-- The free block that takes the words from `start` up to `stop`, if there are any. -/
def filling (start stop : Nat) : List BlockInfo :=
  if start < stop then [⟨start + Header.words, Tag.free, stop - start - Header.words, false⟩]
  else []

/-- The blocks from `start` up to `stop` if all that lies between the blocks in use is free, in
    pieces as large as can be. -/
def around (stop : Nat) : (start : Nat) → (used : List BlockInfo) → List BlockInfo
  | start, [] => filling start stop
  | start, b :: bs =>
    filling start (b.index - Header.words) ++ b :: around stop (b.index + b.size) bs

@[simp] theorem filling_self (start : Nat) : filling start start = [] := by
  simp [filling]

/-- A block in use right behind `start` comes first. -/
theorem around_cons_of_touch (stop start : Nat) {b : BlockInfo} {bs : List BlockInfo}
    (hb : b.index = start + Header.words) :
    around stop start (b :: bs) = b :: around stop (b.index + b.size) bs := by
  rw [around, hb, Nat.add_sub_cancel, filling_self, List.nil_append]

/-- What lies in front of the first block in use is free. -/
theorem around_cons (stop start : Nat) {middle : Nat} {b : BlockInfo} {bs : List BlockInfo}
    (hb : b.index = middle + Header.words) :
    around stop start (b :: bs) = filling start middle ++ around stop middle (b :: bs) := by
  rw [around_cons_of_touch stop middle hb, around, hb, Nat.add_sub_cancel]

end BlockInfo

namespace Heap

open BlockInfo

variable {h h' g : Heap L} {start stop : Nat} {blocks others done : List Nat} {r : SweepReport}

/-- A tiling whose free blocks have no free neighbours is determined by its blocks in use. -/
theorem TilesTo.map_info_eq {keep : Nat → Prop} [DecidablePred keep]
    (ht : h.TilesTo start blocks stop)
    (hfree : ∀ b ∈ blocks, ¬ keep b → h.tagOf b = Tag.free ∧ h.bit b = false)
    (hapart : ∀ b ∈ blocks, ∀ c ∈ blocks, c = b + h.sizeOf b + Header.words → keep b ∨ keep c) :
    blocks.map h.info =
      around stop start ((blocks.filter fun b => decide (keep b)).map h.info) := by
  induction blocks generalizing start with
  | nil =>
    rw [show start = stop from ht]
    exact (filling_self stop).symm
  | cons b bs ih =>
    obtain ⟨hb, hmin, hrest⟩ := ht
    have hih := ih hrest (fun c hc => hfree c (List.mem_cons_of_mem _ hc)) fun c hc d hd =>
      hapart c (List.mem_cons_of_mem _ hc) d (List.mem_cons_of_mem _ hd)
    by_cases hk : keep b
    · rw [List.filter_cons_of_pos (by simpa using hk), List.map_cons, List.map_cons,
        around_cons_of_touch stop start (show (h.info b).index = _ from hb), hih]
      rfl
    · obtain ⟨htag, hclear⟩ := hfree b (List.mem_cons_self ..) hk
      rw [List.filter_cons_of_neg (by simpa using hk)]
      -- The free block takes all words up to the end or up to the neighbour, which is in use.
      have hfill : filling start (b + h.sizeOf b) = [h.info b] := by
        rw [Header.minSize] at hmin
        have hsize : b + h.sizeOf b - start - Header.words = h.sizeOf b := by omega
        rw [filling, if_pos (by omega), hsize, ← hb, info, htag, hclear]
      cases bs with
      | nil =>
        have hstop : b + h.sizeOf b = stop := hrest
        rw [← hstop]
        exact hfill.symm
      | cons c cs =>
        have hc : c = b + h.sizeOf b + Header.words := hrest.1
        have hkc : keep c := (hapart b (List.mem_cons_self ..) c (by simp) hc).resolve_left hk
        rw [List.filter_cons_of_pos (by simpa using hkc)] at hih ⊢
        rw [List.map_cons, hih, List.map_cons,
          around_cons stop start (show (h.info c).index = _ from hc), hfill]
        rfl

/-! ### What a sweep leaves -/

/-- The survivors of a sweep, as the walk meets them afterwards: with their bit set again. -/
def survivors (h : Heap L) (blocks : List Nat) : List BlockInfo :=
  (blocks.filter fun b => decide (h.Spared b)).map fun b => { h.info b with bit := true }

/-- The blocks that a sweep leaves: the survivors, and one free block for each run of words between
    them. -/
def canonical (h : Heap L) (blocks : List Nat) : List BlockInfo :=
  around L.heapEnd L.heapStart (h.survivors blocks)

/-- The free ones among them. -/
def spaces (h : Heap L) (blocks : List Nat) : List BlockInfo :=
  (h.canonical blocks).filter fun b => b.isFree

namespace Rebuilt

variable (hr : Rebuilt h blocks h' done r)

include hr

/-- The survivors are the same blocks before and after. -/
theorem filter_spared_eq :
    done.filter (fun b => decide (h.Spared b)) = blocks.filter fun b => decide (h.Spared b) := by
  have hg := hr.gathered
  have hsorted : (done.filter fun b => decide (h.Spared b)).Pairwise (· < ·) :=
    hg.tiles.sorted.filter _
  refine hsorted.eq_of_mem_iff (hg.tiles_before.sorted.filter _) fun b => ?_
  simp only [List.mem_filter, decide_eq_true_iff]
  constructor
  · exact fun ⟨hb, hs⟩ => ⟨hg.mem_before b hb, hs⟩
  · exact fun ⟨hb, hs⟩ => ⟨hg.mem_done b hb hs, hs⟩

/-- What the bit of a block says after a sweep. -/
theorem bit_eq {b : Nat} (hb : b ∈ done) : h'.bit b = decide (h.Spared b) := by
  have hg := hr.gathered
  have hbound := hg.tiles.bounds hb
  have hin : L.InHeap b := ⟨by omega, by omega⟩
  rw [hg.bit b hin.hasBit, if_pos (hg.mem_before b hb)]

/-- A survivor differs in its bit only. -/
theorem info_eq {b : Nat} (hb : b ∈ blocks) (hs : h.Spared b) :
    h'.info b = { h.info b with bit := true } := by
  have hg := hr.gathered
  have hbound := hg.tiles_before.bounds hb
  have hheader : h'.word (b - 1) = h.word (b - 1) := hg.kept b hb hs _ ⟨by omega, by omega⟩
  have hbit : h'.bit b = true := by
    rw [hr.bit_eq (hg.mem_done b hb hs), decide_eq_true hs]
  rw [info, info, sizeOf_congr hheader, tagOf_congr hheader, hbit]

/-- The blocks that are left are those that the survivors determine. -/
theorem map_info_eq : done.map h'.info = h.canonical blocks := by
  have hsurvivors :
      (done.filter fun b => decide (h.Spared b)).map h'.info = h.survivors blocks := by
    rw [hr.filter_spared_eq]
    refine List.map_congr_left fun b hb => ?_
    obtain ⟨hmem, hs⟩ := List.mem_filter.1 hb
    exact hr.info_eq hmem (of_decide_eq_true hs)
  rw [canonical, ← hsurvivors]
  refine hr.gathered.tiles.map_info_eq (fun b hb hfree => ⟨hr.gathered.tag b hb hfree, ?_⟩) hr.apart
  rw [hr.bit_eq hb, decide_eq_false hfree]

theorem walk_eq : h'.blocks = .ok (h.canonical blocks).toArray := by
  rw [h'.blocks_eq_ok (tiles_iff.2 hr.gathered.tiles), hr.map_info_eq]

/-- A block is tagged as free just if it is no survivor. -/
theorem isFree_info {b : Nat} (hb : b ∈ done) :
    (h'.info b).isFree = !decide (h.Spared b) := by
  show (h'.tagOf b == Tag.free) = _
  by_cases hs : h.Spared b
  · have htag : h'.tagOf b = h.tagOf b :=
      congrArg BlockInfo.tag (hr.info_eq (hr.gathered.mem_before b hb) hs)
    simpa [htag, hs] using hs.2
  · simpa [hs] using hr.gathered.tag b hb hs

/-- The free blocks are those on the list. -/
theorem map_info_spacesOf : (h.spacesOf done).map h'.info = h.spaces blocks := by
  rw [spaces, ← hr.map_info_eq, List.filter_map]
  exact congrArg _ (List.filter_congr fun b hb => (hr.isFree_info hb).symm)

theorem map_index_spaces : (h.spaces blocks).map BlockInfo.index = h.spacesOf done := by
  rw [← hr.map_info_spacesOf, List.map_map]
  exact List.map_id _

end Rebuilt

/-- What a sweep with report `r` makes of a heap `h` with blocks `blocks`: the heap `h'`. -/
structure Cleared (h : Heap L) (blocks : List Nat) (r : SweepReport) (h' : Heap L) : Prop where
  /-- The block walk meets the survivors and one free block for each run of words between them. -/
  walk : h'.blocks = .ok (h.canonical blocks).toArray
  /-- Survivors keep header and payload. -/
  kept : ∀ b ∈ blocks, h.Spared b → ∀ j, h.Covers b j → h'.word j = h.word j
  /-- The list of free blocks leads through these free blocks in their order and then ends. -/
  links : h'.Links (h'.heads.get commonList) ((h.spaces blocks).map BlockInfo.index) VAddr.null
  freeList : h'.freeList commonList = .ok ((h.spaces blocks).map BlockInfo.vaddr).toArray
  sorted : ((h.spaces blocks).map BlockInfo.index).Pairwise (· < ·)
  /-- No two of them are neighbours. -/
  apart : ∀ b ∈ h.spaces blocks, ∀ c ∈ h.spaces blocks, c.index ≠ b.next
  live : r.live = (h.survivors blocks).length
  reclaimed : r.reclaimed = blocks.countP fun b => h.bit b && decide (h.tagOf b ≠ Tag.free)
  freeBlocks : r.freeBlocks = (h.spaces blocks).length
  freeWords : r.freeWords = ((h.spaces blocks).map BlockInfo.size).sum

/-- Listing the free blocks that a sweep has linked meets no fault. -/
theorem Rebuilt.freeList_eq (hr : Rebuilt h blocks h' done r) :
    h'.freeList commonList = .ok ((h.spacesOf done).map VAddr.ofIndex).toArray := by
  refine hr.links.freeList_eq_ok (hr.gathered.tiles.nodup.filter _) fun b hb => ?_
  have := hr.gathered.tiles.bounds (mem_spacesOf.1 hb).1
  exact ⟨by omega, by omega⟩

theorem Rebuilt.cleared (hr : Rebuilt h blocks h' done r) : Cleared h blocks r h' := by
  have hindex := hr.map_index_spaces
  refine ⟨hr.walk_eq, hr.gathered.kept, hindex ▸ hr.links, ?freeList, ?sorted, ?apart, ?live,
    hr.counted.reclaimed, ?freeBlocks, ?freeWords⟩
  case freeList =>
    rw [hr.freeList_eq, ← hindex, List.map_map]
    rfl
  case sorted =>
    rw [hindex]
    exact hr.gathered.tiles.sorted.filter _
  case apart =>
    rw [← hr.map_info_spacesOf]
    intro x hx y hy hnext
    obtain ⟨b, hb, rfl⟩ := List.mem_map.1 hx
    obtain ⟨c, hc, rfl⟩ := List.mem_map.1 hy
    obtain ⟨hbmem, hbfree⟩ := mem_spacesOf.1 hb
    obtain ⟨hcmem, hcfree⟩ := mem_spacesOf.1 hc
    exact (hr.apart b hbmem c hcmem hnext).elim hbfree hcfree
  case live =>
    rw [hr.counted.live, List.countP_eq_length_filter, survivors, List.length_map]
  case freeBlocks =>
    rw [hr.counted.freeBlocks, ← hindex, List.length_map]
  case freeWords =>
    rw [hr.counted.freeWords, ← hr.map_info_spacesOf, List.map_map]
    rfl

/-- Two sweeps leave the same blocks, the same list and, but for the blocks taken back, the same
    report. -/
structure SameOutcome (r : SweepReport) (h : Heap L) (r' : SweepReport) (h' : Heap L) : Prop where
  blocks_eq : h'.blocks = h.blocks
  head_eq : h'.heads.get commonList = h.heads.get commonList
  freeList_eq : h'.freeList commonList = h.freeList commonList
  report_eq : r' = { r with reclaimed := r'.reclaimed }

/-- A path to the null address starts at its first block, or there. -/
theorem Links.start_eq {v : VAddr} {last : VAddr} (hl : h.Links v blocks last) :
    v = (blocks.map VAddr.ofIndex).headD last := by
  cases blocks with
  | nil => exact hl
  | cons b bs => exact hl.1

/-- What a sweep leaves is a matter of the survivors. -/
theorem Cleared.sameOutcome {g' : Heap L} {r' : SweepReport} (hc : Cleared h blocks r h')
    (hd : Cleared g others r' g') (hsurvivors : g.survivors others = h.survivors blocks) :
    SameOutcome r h' r' g' := by
  have hcanonical : g.canonical others = h.canonical blocks := by
    rw [canonical, canonical, hsurvivors]
  have hspaces : g.spaces others = h.spaces blocks := by rw [spaces, spaces, hcanonical]
  refine ⟨?_, ?_, ?_, ?_⟩
  · rw [hc.walk, hd.walk, hcanonical]
  · rw [hc.links.start_eq, hd.links.start_eq, hspaces]
  · rw [hc.freeList, hd.freeList, hspaces]
  · rw [SweepReport.mk.injEq]
    exact ⟨by rw [hc.live, hd.live, hsurvivors], rfl,
      by rw [hc.freeBlocks, hd.freeBlocks, hspaces], by rw [hc.freeWords, hd.freeWords, hspaces]⟩

/-- **Sweeping makes the canonical heap.** Whatever the bits, the links and the list heads of a heap
    are, if its blocks tile it then a sweep leaves the survivors as they are, with one free block in
    each gap between them. So the outcome is the same for any other way to cut and link the gaps. -/
theorem sweep_canonical (ht : h.Tiles L.heapStart blocks) :
    ∃ r h', HeapM.sweep h = (.ok r, h') ∧ Cleared h blocks r h' ∧
      ∀ (g : Heap L) (others : List Nat), g.Tiles L.heapStart others →
        g.survivors others = h.survivors blocks →
        ∃ r' g', HeapM.sweep g = (.ok r', g') ∧ SameOutcome r h' r' g' := by
  obtain ⟨h', done, r, hrun, hr⟩ := HeapM.sweep_apply (tiles_iff.1 ht)
  refine ⟨r, h', hrun, hr.cleared, fun g others hg hsurvivors => ?_⟩
  obtain ⟨g', done', r', hrun', hr'⟩ := HeapM.sweep_apply (tiles_iff.1 hg)
  exact ⟨r', g', hrun', hr.cleared.sameOutcome hr'.cleared hsurvivors⟩

/-- A heap with garbage at index 3, free space at 6 and 12 and a block that was visited at 8. A bit
    is set in the middle of that block, and the list of free blocks leads round in a circle. -/
def littered : Heap Layout.small :=
  (((((((small.putHeader 3 7 2).putHeader 6 Tag.free 1).putHeader 8 9 3).putHeader 12 Tag.free
    4).setBit 3).setBit 9).put 6 (VAddr.ofIndex 6)).withHead (VAddr.ofIndex 6)

/-- The sweep of that heap makes one block of the first two; the outcome is the same if they were
    one before. -/
theorem sweep_canonical_littered :
    let joined := littered.putHeader 3 Tag.free 4
    littered.Tiles Layout.small.heapStart [3, 6, 8, 12] ∧
      joined.Tiles Layout.small.heapStart [3, 8, 12] ∧
      littered.canonical [3, 6, 8, 12] =
        [⟨3, Tag.free, 4, false⟩, ⟨8, 9, 3, true⟩, ⟨12, Tag.free, 4, false⟩] ∧
      ∃ r h' r' g', HeapM.sweep littered = (.ok r, h') ∧ Cleared littered [3, 6, 8, 12] r h' ∧
        HeapM.sweep joined = (.ok r', g') ∧ SameOutcome r h' r' g' := by
  intro joined
  have ht : littered.Tiles Layout.small.heapStart [3, 6, 8, 12] :=
    ⟨rfl, by decide +kernel, by decide +kernel, by decide +kernel, by decide +kernel,
      by decide +kernel, by decide +kernel, by decide +kernel,
      show 12 + littered.sizeOf 12 = 16 by decide +kernel⟩
  have hj : joined.Tiles Layout.small.heapStart [3, 8, 12] :=
    ⟨rfl, by decide +kernel, by decide +kernel, by decide +kernel, by decide +kernel,
      by decide +kernel, show 12 + joined.sizeOf 12 = 16 by decide +kernel⟩
  obtain ⟨r, h', hrun, hcleared, hsame⟩ := sweep_canonical ht
  obtain ⟨r', g', hrun', houtcome⟩ := hsame joined [3, 8, 12] hj (by decide +kernel)
  exact ⟨ht, hj, by decide +kernel, r, h', r', g', hrun, hcleared, hrun', houtcome⟩

end Heap

end ArenaHeap
