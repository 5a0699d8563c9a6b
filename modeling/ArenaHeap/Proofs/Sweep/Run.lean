import ArenaHeap.Proofs.Sweep.Gathered

namespace ArenaHeap

/-!
# Sweeping makes the canonical heap

The sweep as a whole. Besides `Heap.Gathered` its invariant has the list of free blocks so far,
`Heap.Threaded`, and the report so far, `Heap.Counted`.

* `Heap.Swept.step` — sweeping one block keeps the invariant.
* `HeapM.sweepFrom_apply` — so sweeping all that is ahead does.
* `HeapM.sweep_apply` — at the end the blocks are the spared ones and, between them, one free block
  for each run of words that is left.
-/

variable {L : Layout}

namespace Heap

/-- The blocks that are not spared. -/
def spacesOf (h₀ : Heap L) (blocks : List Nat) : List Nat :=
  blocks.filter fun b => !decide (h₀.Spared b)

/-- The list of free blocks behind a sweep, whose last link is still to be written. -/
structure Threaded (h₀ h : Heap L) (done : List Nat) (last : Option Nat) : Prop where
  last_eq : last = (h₀.spacesOf done).getLast?
  links : ∀ front f, h₀.spacesOf done = front ++ [f] →
    h.Links (h.heads.get commonList) front (VAddr.ofIndex f)
  /-- No two free blocks are neighbours. -/
  apart : ∀ b ∈ done, ∀ c ∈ done, c = b + h.sizeOf b + Header.words →
    h₀.Spared b ∨ h₀.Spared c

/-- The report counts what was met and what is left. -/
structure Counted (h₀ : Heap L) (before : List Nat) (h : Heap L) (done : List Nat)
    (r : SweepReport) : Prop where
  live : r.live = before.countP fun b => decide (h₀.Spared b)
  reclaimed : r.reclaimed = before.countP fun b => h₀.bit b && decide (h₀.tagOf b ≠ Tag.free)
  freeBlocks : r.freeBlocks = (h₀.spacesOf done).length
  freeWords : r.freeWords = ((h₀.spacesOf done).map h.sizeOf).sum

variable {h₀ h h' : Heap L} {before done : List Nat} {stop b : Nat} {last : Option Nat}
  {r : SweepReport}

theorem mem_spacesOf {blocks : List Nat} :
    b ∈ h₀.spacesOf blocks ↔ b ∈ blocks ∧ ¬ h₀.Spared b := by
  simp [spacesOf]

theorem spacesOf_concat_spared {blocks : List Nat} (hs : h₀.Spared b) :
    h₀.spacesOf (blocks ++ [b]) = h₀.spacesOf blocks := by
  rw [spacesOf, List.filter_append, List.filter_singleton]
  simp [hs, spacesOf]

theorem spacesOf_concat_free {blocks : List Nat} (hs : ¬ h₀.Spared b) :
    h₀.spacesOf (blocks ++ [b]) = h₀.spacesOf blocks ++ [b] := by
  rw [spacesOf, List.filter_append, List.filter_singleton]
  simp [hs, spacesOf]

namespace Threaded

/-- The free blocks so far are a path, wherever it ends. -/
theorem exists_links (ht : Threaded h₀ h done last) :
    ∃ v, h.Links (h.heads.get commonList) (h₀.spacesOf done) v := by
  rcases List.eq_nil_or_concat' (h₀.spacesOf done) with hnil | ⟨front, f, hconcat⟩
  · exact ⟨_, by rw [hnil]; exact rfl⟩
  · exact ⟨_, by rw [hconcat]; exact links_concat_iff.2 ⟨ht.links front f hconcat, rfl⟩⟩

theorem mem_of_last (ht : Threaded h₀ h done last) {f : Nat} (hf : last = some f) :
    f ∈ done ∧ ¬ h₀.Spared f := by
  rw [ht.last_eq] at hf
  exact mem_spacesOf.1 (List.mem_of_getLast? hf)

/-- A free block that the sweep has just passed is the last one. -/
theorem last_of_touch (ht : Threaded h₀ h done last) (hg : Gathered h₀ before stop h done)
    {f : Nat} (hf : f ∈ done) (hfree : ¬ h₀.Spared f) (htouch : f + h.sizeOf f = stop) :
    last = some f := by
  obtain ⟨front, hdone⟩ := hg.tiles.eq_concat hf htouch
  rw [ht.last_eq, hdone, spacesOf_concat_free hfree, List.getLast?_concat]

/-- Links are payload words of free blocks, so headers and bits may be written. -/
theorem links_congr (ht : Threaded h₀ h done last) (hheads : h'.heads = h.heads)
    (hword : ∀ f ∈ done, h'.word f = h.word f) (front : List Nat) (f : Nat)
    (hfree : h₀.spacesOf done = front ++ [f]) :
    h'.Links (h'.heads.get commonList) front (VAddr.ofIndex f) := by
  rw [hheads]
  refine (ht.links front f hfree).congr fun c hc => ?_
  have hmem : c ∈ h₀.spacesOf done := by
    rw [hfree]
    exact List.mem_append_left _ hc
  exact hword c (mem_spacesOf.1 hmem).1

/-- A spared block changes nothing about the list. -/
theorem spare (ht : Threaded h₀ h done last) (hs : h₀.Spared b) (hheads : h'.heads = h.heads)
    (hword : ∀ f ∈ done, h'.word f = h.word f) (hsizes : ∀ c ∈ done, h'.sizeOf c = h.sizeOf c) :
    Threaded h₀ h' (done ++ [b]) last := by
  have hspaces : h₀.spacesOf (done ++ [b]) = h₀.spacesOf done := spacesOf_concat_spared hs
  refine ⟨?last_eq, ?links, ?apart⟩
  case last_eq => rw [hspaces, ht.last_eq]
  case links =>
    intro front f hfree
    rw [hspaces] at hfree
    exact ht.links_congr hheads hword front f hfree
  case apart =>
    intro c hc d hd hnext
    rcases List.mem_append.1 hc with hc | hc
    · rcases List.mem_append.1 hd with hd | hd
      · rw [hsizes c hc] at hnext
        exact ht.apart c hc d hd hnext
      · exact .inr (List.mem_singleton.1 hd ▸ hs)
    · exact .inl (List.mem_singleton.1 hc ▸ hs)

/-- A free block of its own is linked behind the last one. -/
theorem separate (ht : Threaded h₀ h done last) (hg : Gathered h₀ before stop h done)
    (hb : b = stop + 1) (hin : b < L.size) (hnot : ¬ h₀.Spared b)
    (hgap : ∀ f ∈ last, f + h.sizeOf f ≠ stop) (hheads : h'.heads = h.heads)
    (hword : ∀ f ∈ done, h'.word f = h.word f)
    (hsizes : ∀ c ∈ done, (h'.relinked last (VAddr.ofIndex b)).sizeOf c = h.sizeOf c) :
    Threaded h₀ (h'.relinked last (VAddr.ofIndex b)) (done ++ [b]) (some b) := by
  have hspaces : h₀.spacesOf (done ++ [b]) = h₀.spacesOf done ++ [b] := spacesOf_concat_free hnot
  refine ⟨?last_eq, ?links, ?apart⟩
  case last_eq => rw [hspaces, List.getLast?_concat]
  case links =>
    intro front f hfree
    rw [hspaces] at hfree
    obtain ⟨rfl, hbf⟩ := List.append_inj' hfree rfl
    rw [List.singleton_inj] at hbf
    -- Relinking moves the end of the path, which is now the new block.
    obtain ⟨v, hlinks⟩ := ht.exists_links
    rw [← hheads] at hlinks
    have hlinks' : h'.Links (h'.heads.get commonList) (h₀.spacesOf done) v :=
      hlinks.congr fun c hc => hword c (mem_spacesOf.1 hc).1
    rw [ht.last_eq, ← hbf]
    refine hlinks'.relinked (hg.tiles.nodup.filter _) (fun c hc => ?_) _
    have := hg.tiles.bounds (mem_spacesOf.1 hc).1
    omega
  case apart =>
    intro c hc d hd hnext
    rw [Header.words] at hnext
    rcases List.mem_append.1 hc with hc | hc <;> rcases List.mem_append.1 hd with hd | hd
    · rw [hsizes c hc] at hnext
      exact ht.apart c hc d hd hnext
    · -- The block in front of the new one is the last one there is, so it is in use.
      rw [List.mem_singleton] at hd
      rw [hsizes c hc] at hnext
      by_contra hfree
      have htouch : c + h.sizeOf c = stop := by omega
      have hcfree : ¬ h₀.Spared c := fun hs => hfree (.inl hs)
      exact hgap c (ht.last_of_touch hg hc hcfree htouch) htouch
    · rw [List.mem_singleton] at hc
      have := hg.tiles.bounds hd
      omega
    · rw [List.mem_singleton] at hc hd
      omega

/-- Merging a block into the last one leaves the list as it is. -/
theorem merge (ht : Threaded h₀ h done last) {f : Nat} (hheads : h'.heads = h.heads)
    (hword : ∀ c ∈ done, h'.word c = h.word c)
    (hsizes : ∀ c ∈ done, c ≠ f → h'.sizeOf c = h.sizeOf c)
    (hend : ∀ c ∈ done, c < f + h'.sizeOf f) : Threaded h₀ h' done last := by
  refine ⟨ht.last_eq, ht.links_congr hheads hword, fun c hc d hd hnext => ?_⟩
  by_cases hcf : c = f
  · -- Nothing is left behind the merged block.
    rw [hcf, Header.words] at hnext
    have := hend d hd
    omega
  · rw [hsizes c hc hcf] at hnext
    exact ht.apart c hc d hd hnext

end Threaded

/-! ### The report -/

/-- The report once a block was met that is not spared. -/
def reported (h₀ : Heap L) (b : Nat) (r : SweepReport) : SweepReport :=
  if h₀.tagOf b = Tag.free then r else r.reclaim

theorem freeBlocks_reported (h₀ : Heap L) (b : Nat) (r : SweepReport) :
    (h₀.reported b r).freeBlocks = r.freeBlocks := by
  unfold reported
  split <;> rfl

theorem freeWords_reported (h₀ : Heap L) (b : Nat) (r : SweepReport) :
    (h₀.reported b r).freeWords = r.freeWords := by
  unfold reported
  split <;> rfl

namespace Counted

/-- A block that is not spared counts as reclaimed if it was allocated. -/
theorem reported (hc : Counted h₀ before h done r) (hnot : ¬ h₀.Spared b) :
    (h₀.reported b r).live = (before ++ [b]).countP (fun c => decide (h₀.Spared c)) ∧
    (h₀.reported b r).reclaimed =
      (before ++ [b]).countP fun c => h₀.bit c && decide (h₀.tagOf c ≠ Tag.free) := by
  rw [List.countP_append, List.countP_append, ← hc.live, ← hc.reclaimed]
  unfold Heap.reported
  by_cases htag : h₀.tagOf b = Tag.free
  · simp [htag, hnot]
  · have hbit : h₀.bit b = true := by
      -- A clear bit and another tag would have spared the block.
      by_contra hclear
      exact hnot ⟨by simpa using hclear, htag⟩
    simp [htag, hnot, hbit, SweepReport.reclaim]

/-- The free blocks that two sweeps leave are counted alike if they are the same. -/
theorem spaces_eq {h₁ g g' : Heap L} {others : List Nat} {r' : SweepReport}
    (hc : Counted h₀ before g done r) (hc' : Counted h₁ others g' done r')
    (hspared : ∀ b ∈ done, h₁.Spared b ↔ h₀.Spared b)
    (hsize : ∀ b ∈ done, g'.sizeOf b = g.sizeOf b) :
    r'.freeBlocks = r.freeBlocks ∧ r'.freeWords = r.freeWords := by
  have hspaces : h₁.spacesOf done = h₀.spacesOf done :=
    List.filter_congr fun b hb => by rw [decide_eq_decide.2 (hspared b hb)]
  constructor
  · rw [hc'.freeBlocks, hc.freeBlocks, hspaces]
  · rw [hc'.freeWords, hc.freeWords, hspaces]
    exact congrArg _ (List.map_congr_left fun b hb => hsize b (mem_spacesOf.1 hb).1)

/-- A spared block counts as live. -/
theorem spare (hc : Counted h₀ before h done r) (hs : h₀.Spared b)
    (hsizes : ∀ c ∈ done, h'.sizeOf c = h.sizeOf c) :
    Counted h₀ (before ++ [b]) h' (done ++ [b]) r.survived := by
  have hspaces : h₀.spacesOf (done ++ [b]) = h₀.spacesOf done := spacesOf_concat_spared hs
  refine ⟨?live, ?reclaimed, ?freeBlocks, ?freeWords⟩
  case live =>
    rw [SweepReport.survived, List.countP_append, hc.live]
    simp [hs]
  case reclaimed =>
    rw [SweepReport.survived, List.countP_append, hc.reclaimed]
    simp [hs.1]
  case freeBlocks =>
    rw [hspaces]
    exact hc.freeBlocks
  case freeWords =>
    rw [hspaces, SweepReport.survived, hc.freeWords]
    exact congrArg _ (List.map_congr_left fun c hc => (hsizes c (mem_spacesOf.1 hc).1).symm)

/-- A free block of its own adds its words. -/
theorem separate (hc : Counted h₀ before h done r) (hnot : ¬ h₀.Spared b) {size : Nat}
    (hsizes : ∀ c ∈ done, h'.sizeOf c = h.sizeOf c) (hsizeb : h'.sizeOf b = size) :
    Counted h₀ (before ++ [b]) h' (done ++ [b]) ((h₀.reported b r).separate size) := by
  have hspaces : h₀.spacesOf (done ++ [b]) = h₀.spacesOf done ++ [b] := spacesOf_concat_free hnot
  obtain ⟨hlive, hreclaimed⟩ := hc.reported hnot
  refine ⟨hlive, hreclaimed, ?freeBlocks, ?freeWords⟩
  case freeBlocks =>
    rw [hspaces, List.length_append, ← hc.freeBlocks, SweepReport.separate, freeBlocks_reported]
    rfl
  case freeWords =>
    rw [hspaces, List.map_append, List.sum_append, List.map_singleton, List.sum_singleton,
      List.map_congr_left fun c hc => hsizes c (mem_spacesOf.1 hc).1, ← hc.freeWords, hsizeb,
      SweepReport.separate, freeWords_reported]

/-- Merging a block adds its words and its header to the words of the last block. -/
theorem merge {front : List Nat} {f size : Nat} (hc : Counted h₀ before h (front ++ [f]) r)
    (hnot : ¬ h₀.Spared b) (hfree : ¬ h₀.Spared f)
    (hsizes : ∀ c ∈ front, h'.sizeOf c = h.sizeOf c)
    (hsizef : h'.sizeOf f = h.sizeOf f + size + Header.words) :
    Counted h₀ (before ++ [b]) h' (front ++ [f]) ((h₀.reported b r).absorb size) := by
  obtain ⟨hlive, hreclaimed⟩ := hc.reported hnot
  refine ⟨hlive, hreclaimed, ?freeBlocks, ?freeWords⟩
  case freeBlocks =>
    rw [SweepReport.absorb, freeBlocks_reported]
    exact hc.freeBlocks
  case freeWords =>
    have hsum := hc.freeWords
    rw [spacesOf_concat_free hfree, List.map_append, List.sum_append, List.map_singleton,
      List.sum_singleton] at *
    rw [List.map_congr_left fun c hc => hsizes c (mem_spacesOf.1 hc).1, hsizef]
    show (h₀.reported b r).freeWords + size + Header.words = _
    rw [freeWords_reported, hsum]
    omega

end Counted

/-! ### One block of the sweep -/

/-- The invariant of a sweep. -/
structure Swept (h₀ : Heap L) (before : List Nat) (stop : Nat) (h : Heap L) (done : List Nat)
    (last : Option Nat) (r : SweepReport) : Prop where
  gathered : Gathered h₀ before stop h done
  threaded : Threaded h₀ h done last
  counted : Counted h₀ before h done r
  heads : ∀ n : Fin listCount, n ≠ commonList → h.heads.get n = h₀.heads.get n
  counters : h.counters = h₀.counters

namespace Swept

/-- A spared block stays a block of its own. -/
theorem spare (hw : Swept h₀ before stop h done last r) (hb : b = stop + 1)
    (hpos : 1 ≤ h₀.sizeOf b) (hend : b + h₀.sizeOf b ≤ L.heapEnd) (hs : h₀.Spared b) :
    Swept h₀ (before ++ [b]) (b + h₀.sizeOf b) (h.setBit b) (done ++ [b]) last r.survived := by
  have hg := hw.gathered
  obtain ⟨hlow, hin, hnew, hprev⟩ := hg.inHeap_next hb hpos hend
  have hword : ∀ j, j < L.reserved ∨ L.heapStart ≤ j → (h.setBit b).word j = h.word j :=
    fun j hj => word_setBit h (hin.ne_bitWord hj)
  have hlinks : ∀ c ∈ done, (h.setBit b).word c = h.word c := by
    intro c hc
    have := hg.tiles.bounds hc
    exact hword c (.inr (by omega))
  have hsizes : ∀ c ∈ done, (h.setBit b).sizeOf c = h.sizeOf c := by
    intro c hc
    have := hg.tiles.bounds hc
    exact sizeOf_congr (hword _ (.inr (by omega)))
  refine ⟨?_, hw.threaded.spare hs rfl hlinks hsizes, hw.counted.spare hs hsizes, hw.heads,
    hw.counters⟩
  have hheader : (h.setBit b).word (b - 1) = h.word (b - 1) := hword _ (.inr (by omega))
  refine hg.extend hb hpos hend (fun j hj _ => hword j hj) ?_ (fun _ => hheader)
    (fun hnot => absurd hs hnot) fun i hi => ?_
  · exact (sizeOf_congr hheader).trans (hg.next_eq hb hpos hend).1
  · rw [bit_setBit h hin hi.1]
    by_cases hib : i = b
    · simp [hib, hs]
    · simp [hib, Ne.symm hib]

/-- What writing the bit and the header of the swept block does. -/
theorem released_eq (hw : Swept h₀ before stop h done last r) (hb : b = stop + 1)
    (hpos : 1 ≤ h₀.sizeOf b) (hend : b + h₀.sizeOf b ≤ L.heapEnd) (hnot : ¬ h₀.Spared b) :
    (h.released b (h₀.sizeOf b)).sizeOf b = h₀.sizeOf b ∧
    (h.released b (h₀.sizeOf b)).tagOf b = Tag.free ∧
    (∀ j, j < L.reserved ∨ L.heapStart ≤ j → j ≠ b - 1 →
      (h.released b (h₀.sizeOf b)).word j = h.word j) ∧
    (∀ f ∈ done, (h.released b (h₀.sizeOf b)).sizeOf f = h.sizeOf f) ∧
    ∀ i, L.HasBit i → (h.released b (h₀.sizeOf b)).bit i =
      if i = b then decide (h₀.Spared b) else h.bit i := by
  obtain ⟨hlow, hin, hnew, hprev⟩ := hw.gathered.inHeap_next hb hpos hend
  have hsize : b - 1 < L.size := by
    have := hin.lt_size
    omega
  have hword : ∀ j, j < L.reserved ∨ L.heapStart ≤ j → j ≠ b - 1 →
      (h.released b (h₀.sizeOf b)).word j = h.word j :=
    fun j hj hjb => word_released (hin.ne_bitWord hj) hjb
  refine ⟨sizeOf_released hsize (h₀.sizeOf_le b), tagOf_released hsize (h₀.sizeOf_le b), hword,
    fun f hf => ?_, fun i hi => ?_⟩
  · have := hw.gathered.tiles.bounds hf
    exact sizeOf_congr (hword _ (.inr (by omega)) (by omega))
  · rw [bit_released hin hlow hi]
    by_cases hib : i = b
    · simp [hib, hnot]
    · simp [hib, Ne.symm hib]

/-- A block that is not spared and does not touch the free block in front becomes a free block of
    its own. -/
theorem separate (hw : Swept h₀ before stop h done last r) (hb : b = stop + 1)
    (hpos : 1 ≤ h₀.sizeOf b) (hend : b + h₀.sizeOf b ≤ L.heapEnd) (hnot : ¬ h₀.Spared b)
    (hgap : ∀ f ∈ last, f + h.sizeOf f ≠ stop) :
    Swept h₀ (before ++ [b]) (b + h₀.sizeOf b)
      ((h.released b (h₀.sizeOf b)).relinked last (VAddr.ofIndex b)) (done ++ [b]) (some b)
      ((h₀.reported b r).separate (h₀.sizeOf b)) := by
  have hg := hw.gathered
  obtain ⟨hlow, hin, hnew, hprev⟩ := hg.inHeap_next hb hpos hend
  obtain ⟨hsize, htag, hword, hsizes, hbit⟩ := hw.released_eq hb hpos hend hnot
  have hlinks : ∀ c ∈ done, (h.released b (h₀.sizeOf b)).word c = h.word c := by
    intro c hc
    have := hg.tiles.bounds hc
    exact hword c (.inr (by omega)) (by omega)
  -- Links are payload words, so relinking changes no header.
  have hheader : ∀ c ∈ done ++ [b], last ≠ some (c - 1) := by
    intro c hc hf
    have hmem := (hw.threaded.mem_of_last hf).1
    rcases List.mem_append.1 hc with hc | hc
    · exact hg.tiles.header_ne hc hmem rfl
    · have := hg.tiles.bounds hmem
      rw [List.mem_singleton] at hc
      omega
  have hsizes' : ∀ c ∈ done, ((h.released b (h₀.sizeOf b)).relinked last
      (VAddr.ofIndex b)).sizeOf c = h.sizeOf c := fun c hc =>
    (sizeOf_congr (word_relinked _ (hheader c (List.mem_append_left _ hc)) _)).trans (hsizes c hc)
  have hsizeb : ((h.released b (h₀.sizeOf b)).relinked last (VAddr.ofIndex b)).sizeOf b =
      h₀.sizeOf b :=
    (sizeOf_congr (word_relinked _ (hheader b (by simp)) _)).trans hsize
  refine ⟨?gathered, ?threaded, ?counted, fun n hn => ?heads, ?counters⟩
  case gathered =>
    refine (hg.extend hb hpos hend hword hsize (fun hs => absurd hs hnot) (fun _ => htag)
      hbit).relinked (fun f hf => ?_) _
    obtain ⟨hmem, hfree⟩ := hw.threaded.mem_of_last hf
    exact ⟨List.mem_append_left _ hmem, hfree⟩
  case threaded =>
    exact hw.threaded.separate hg hb hin.lt_size hnot hgap rfl hlinks hsizes'
  case counted => exact hw.counted.separate hnot hsizes' hsizeb
  case heads =>
    rw [heads_relinked _ _ _ hn]
    exact hw.heads n hn
  case counters =>
    rw [← hw.counters]
    cases last <;> rfl

/-- A block that is not spared and touches the free block in front is merged into that one. -/
theorem merge (hw : Swept h₀ before stop h done last r) (hb : b = stop + 1)
    (hpos : 1 ≤ h₀.sizeOf b) (hend : b + h₀.sizeOf b ≤ L.heapEnd) (hnot : ¬ h₀.Spared b)
    {f : Nat} (hlast : last = some f) (htouch : f + h.sizeOf f = stop) :
    Swept h₀ (before ++ [b]) (b + h₀.sizeOf b)
      ((h.released b (h₀.sizeOf b)).putHeader f Tag.free
        ((h.released b (h₀.sizeOf b)).sizeOf f + h₀.sizeOf b + Header.words)) done last
      ((h₀.reported b r).absorb (h₀.sizeOf b)) := by
  have hg := hw.gathered
  obtain ⟨hlow, hin, hnew, hprev⟩ := hg.inHeap_next hb hpos hend
  obtain ⟨_, _, hword, hsizes, hbit⟩ := hw.released_eq hb hpos hend hnot
  obtain ⟨hf, hfree⟩ := hw.threaded.mem_of_last hlast
  have hfb := hg.tiles.bounds hf
  rw [hsizes f hf]
  -- Together the two blocks are still smaller than the heap, so their size can be recorded.
  have hmax : h.sizeOf f + h₀.sizeOf b + Header.words ≤ Header.maxSize := by
    have := L.heapEnd_le
    rw [Header.words] at *
    omega
  have hflt : f - 1 < L.size := by
    have := hin.lt_size
    omega
  have hword' : ∀ j, j < L.reserved ∨ L.heapStart ≤ j → j ≠ b - 1 → j ≠ f - 1 →
      ((h.released b (h₀.sizeOf b)).putHeader f Tag.free
        (h.sizeOf f + h₀.sizeOf b + Header.words)).word j = h.word j := by
    intro j hj hjb hjf
    rw [word_putHeader_ne _ hjf, hword j hj hjb]
  have hsizef := sizeOf_putHeader (h.released b (h₀.sizeOf b)) hflt Tag.free hmax
  have hlinks : ∀ c ∈ done, ((h.released b (h₀.sizeOf b)).putHeader f Tag.free
      (h.sizeOf f + h₀.sizeOf b + Header.words)).word c = h.word c := by
    intro c hc
    have := hg.tiles.bounds hc
    exact hword' c (.inr (by omega)) (by omega) fun hcf => hg.tiles.header_ne hf hc hcf.symm
  have hsizes' : ∀ c ∈ done, c ≠ f → ((h.released b (h₀.sizeOf b)).putHeader f Tag.free
      (h.sizeOf f + h₀.sizeOf b + Header.words)).sizeOf c = h.sizeOf c := by
    intro c hc hcf
    have := hg.tiles.bounds hc
    exact sizeOf_congr (hword' _ (.inr (by omega)) (by omega) (by omega))
  refine ⟨?gathered, ?threaded, ?counted, hw.heads, hw.counters⟩
  case gathered =>
    refine hg.merge hb hpos hend hnot hf hfree htouch hword' hsizef
      (tagOf_putHeader _ hflt _ hmax) fun i hi => ?_
    rw [← hbit i hi, putHeader]
    exact bit_put_of_le _ hi (by rw [Header.words]; omega) _
  case threaded =>
    refine hw.threaded.merge rfl hlinks hsizes' fun c hc => ?_
    have := hg.tiles.bounds hc
    rw [hsizef]
    omega
  case counted =>
    -- The merged block is the last one, so the sum of the others stays.
    obtain ⟨front, rfl⟩ := hg.tiles.eq_concat hf htouch
    have hnodup := (List.nodup_append.1 hg.tiles.nodup).2.2
    refine hw.counted.merge hnot hfree (fun c hc => ?_) hsizef
    exact hsizes' c (by simp [hc]) (hnodup c hc f (by simp))

/-- **One block of the sweep.** Sweeping the next block meets no fault and keeps the invariant. -/
theorem step (hw : Swept h₀ before stop h done last r) (hb : b = stop + 1)
    (hpos : 1 ≤ h₀.sizeOf b) (hend : b + h₀.sizeOf b ≤ L.heapEnd) :
    ∃ h' done' last' r', HeapM.sweepBlock b (h₀.sizeOf b) last r h = (.ok (last', r'), h') ∧
      Swept h₀ (before ++ [b]) (b + h₀.sizeOf b) h' done' last' r' := by
  have hg := hw.gathered
  obtain ⟨hlow, hin, hnew, hprev⟩ := hg.inHeap_next hb hpos hend
  obtain ⟨_, htag, hbit⟩ := hg.next_eq hb hpos hend
  -- The sweep reads header and bit of a block that it has not touched yet.
  have hspared : h.Spared b ↔ h₀.Spared b := by rw [Spared, Spared, htag, hbit]
  by_cases hs : h₀.Spared b
  · exact ⟨_, _, _, _, HeapM.sweepBlock_spare hin hlow (hspared.2 hs),
      hw.spare hb hpos hend hs⟩
  rw [HeapM.sweepBlock_release hin hlow fun hs' => hs (hspared.1 hs'), htag, ← reported]
  obtain ⟨_, _, _, hsizes, _⟩ := hw.released_eq hb hpos hend hs
  have hlast : ∀ f ∈ last, 0 < f ∧ f < L.size ∧
      (h.released b (h₀.sizeOf b)).sizeOf f = h.sizeOf f := by
    intro f hf
    have hmem := (hw.threaded.mem_of_last hf).1
    have := hg.tiles.bounds hmem
    have := hin.lt_size
    exact ⟨by omega, by omega, hsizes f hmem⟩
  by_cases htouch : ∃ f, last = some f ∧ f + h.sizeOf f = stop
  · obtain ⟨f, rfl, htouch⟩ := htouch
    obtain ⟨hfpos, hfsize, hsizef⟩ := hlast f rfl
    refine ⟨_, _, _, _, HeapM.release_merge hin hlow hfpos hfsize ?_,
      hw.merge hb hpos hend hs rfl htouch⟩
    rw [hsizef, Header.words]
    omega
  · have hgap : ∀ f ∈ last, f + h.sizeOf f ≠ stop := fun f hf hc => htouch ⟨f, hf, hc⟩
    refine ⟨_, _, _, _, HeapM.release_separate hin hlow fun f hf => ?_,
      hw.separate hb hpos hend hs hgap⟩
    obtain ⟨hfpos, hfsize, hsizef⟩ := hlast f hf
    have := hgap f hf
    rw [hsizef, Header.words]
    exact ⟨hfpos, hfsize, by omega⟩

/-- Nothing has been swept yet. -/
theorem initial (h₀ : Heap L) : Swept h₀ [] L.heapStart h₀ [] none {} where
  gathered := by
    refine ⟨rfl, rfl, ?_, ?_, ?_, ?_, ?_, fun i _ => ?_, fun _ _ => rfl, fun _ _ => rfl⟩
    all_goals simp
  threaded := by
    refine ⟨rfl, fun front f hfree => ?_, ?_⟩
    · simp [spacesOf] at hfree
    · simp
  counted := ⟨rfl, rfl, rfl, rfl⟩
  heads := fun _ _ => rfl
  counters := rfl

/-- **All blocks ahead.** Sweeping them one after the other meets no fault. -/
theorem sweepFrom_apply {ahead : List Nat} (hw : Swept h₀ before stop h done last r)
    (ht : h₀.TilesTo stop ahead L.heapEnd) :
    ∃ h' done' last' r', HeapM.sweepFrom (stop + Header.words) last r h =
        (.ok (last', r'), h') ∧
      Swept h₀ (before ++ ahead) L.heapEnd h' done' last' r' := by
  -- By induction on the blocks ahead, whose sizes are those of `h₀` until they are swept.
  induction ahead generalizing before stop h done last r with
  | nil =>
    have hstop : stop = L.heapEnd := ht
    subst hstop
    refine ⟨h, done, last, r, ?_, by rw [List.append_nil]; exact hw⟩
    rw [HeapM.sweepFrom, if_neg (by omega)]
    rfl
  | cons b bs ih =>
    have hbounds := ht.bounds (List.mem_cons_self ..)
    obtain ⟨hb, _, hrest⟩ := ht
    rw [Header.words] at hb
    have hread : HeapM.ask (·.sizeAt b) h = (.ok (h₀.sizeOf b), h) := by
      obtain ⟨hlow, hin, _, _⟩ := hw.gathered.inHeap_next hb hbounds.2.1 hbounds.2.2
      rw [← (hw.gathered.next_eq hb hbounds.2.1 hbounds.2.2).1]
      exact HeapM.ask_eq_ok (h.sizeAt_eq_ok (by omega) (Nat.le_of_lt hin.lt_size))
    obtain ⟨h', done', last', r', hrun, hw'⟩ := hw.step hb hbounds.2.1 hbounds.2.2
    obtain ⟨h'', done'', last'', r'', hrun', hw''⟩ := ih hw' hrest
    rw [List.append_assoc] at hw''
    refine ⟨h'', done'', last'', r'', ?_, hw''⟩
    rw [HeapM.sweepFrom, Header.words, ← hb, if_pos (by omega), HeapM.bind_apply hread,
      HeapM.bind_apply hrun]
    exact hrun'

end Swept

/-! ### The whole sweep -/

/-- What a sweep of the blocks of `h₀` leaves. -/
structure Rebuilt (h₀ : Heap L) (blocks : List Nat) (h : Heap L) (done : List Nat)
    (r : SweepReport) : Prop where
  gathered : Gathered h₀ blocks L.heapEnd h done
  links : h.Links (h.heads.get commonList) (h₀.spacesOf done) VAddr.null
  apart : ∀ b ∈ done, ∀ c ∈ done, c = b + h.sizeOf b + Header.words →
    h₀.Spared b ∨ h₀.Spared c
  counted : Counted h₀ blocks h done r
  heads : ∀ n : Fin listCount, n ≠ commonList → h.heads.get n = h₀.heads.get n
  counters : h.counters = h₀.counters

/-- Closing the list of free blocks ends a sweep. -/
theorem Swept.close (hw : Swept h₀ before L.heapEnd h done last r) :
    Rebuilt h₀ before (h.relinked last VAddr.null) done r := by
  have hg := hw.gathered
  have hsizes : ∀ c ∈ done, (h.relinked last VAddr.null).sizeOf c = h.sizeOf c := fun c hc =>
    sizeOf_congr (word_relinked _ (fun hf =>
      hg.tiles.header_ne hc (hw.threaded.mem_of_last hf).1 rfl) _)
  refine ⟨hg.relinked (fun f hf => hw.threaded.mem_of_last hf) _, ?links, ?apart, ⟨hw.counted.live,
    hw.counted.reclaimed, hw.counted.freeBlocks, ?freeWords⟩, fun n hn => ?heads, ?counters⟩
  case links =>
    obtain ⟨v, hlinks⟩ := hw.threaded.exists_links
    rw [hw.threaded.last_eq]
    refine hlinks.relinked (hg.tiles.nodup.filter _) (fun c hc => ?_) _
    have := hg.tiles.bounds (mem_spacesOf.1 hc).1
    exact Nat.lt_of_lt_of_le (by omega) (Nat.le_refl L.heapEnd)
  case apart =>
    intro c hc d hd hnext
    rw [hsizes c hc] at hnext
    exact hw.threaded.apart c hc d hd hnext
  case freeWords =>
    rw [hw.counted.freeWords]
    exact congrArg _ (List.map_congr_left fun c hc => (hsizes c (mem_spacesOf.1 hc).1).symm)
  case heads =>
    rw [heads_relinked _ _ _ hn]
    exact hw.heads n hn
  case counters =>
    rw [← hw.counters]
    cases last <;> rfl

end Heap

/-- **Sweeping.** A sweep of a heap whose blocks tile it meets no fault, whatever its bits and
    links are. -/
theorem HeapM.sweep_apply {h₀ : Heap L} {blocks : List Nat}
    (ht : h₀.TilesTo L.heapStart blocks L.heapEnd) :
    ∃ h done r, HeapM.sweep h₀ = (.ok r, h) ∧ h₀.Rebuilt blocks h done r := by
  obtain ⟨h, done, last, r, hrun, hw⟩ := (Heap.Swept.initial h₀).sweepFrom_apply ht
  have hlast : ∀ f ∈ last, f < L.size := by
    intro f hf
    have := hw.gathered.tiles.bounds (hw.threaded.mem_of_last hf).1
    exact Nat.lt_of_lt_of_le (by omega) (Nat.le_refl L.heapEnd)
  refine ⟨h.relinked last VAddr.null, done, r, ?_, hw.close⟩
  show (sweepFrom (L.heapStart + Header.words) none {} >>= fun _ => _) h₀ = _
  rw [bind_apply hrun]
  exact bind_apply (relink_apply _ hlast _)

end ArenaHeap
