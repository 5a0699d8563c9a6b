import ArenaHeap.Collect.Sweep
import ArenaHeap.Proofs.Ordered

namespace ArenaHeap

/-!
# What a sweep does to the blocks

A sweep meets a heap whose blocks tile it; what bits and links it has does not matter. The blocks
that are spared stay as they are, and each other block becomes free space, merged into the free
block in front of it if the two touch. `Heap.Gathered` says how far that has come: the blocks
behind the sweep are those it leaves, and the words ahead of it are untouched.

* `HeapM.sweepBlock_spare`, `HeapM.release_separate`, `HeapM.release_merge` — the three things that
  can happen to a block.
* `Heap.Gathered.extend`, `Heap.Gathered.merge` — how they keep the invariant.
-/

variable {L : Layout}

namespace Heap

/-- A block that a sweep lets stand: it was visited and is not tagged as free. -/
def Spared (h : Heap L) (b : Nat) : Prop := h.bit b = false ∧ h.tagOf b ≠ Tag.free

instance (h : Heap L) (b : Nat) : Decidable (h.Spared b) := inferInstanceAs (Decidable (_ ∧ _))

/-- The heap with a block made free space. -/
def released (h : Heap L) (b size : Nat) : Heap L := (h.clearBit b).putHeader b Tag.free size

variable {h : Heap L} {b size : Nat}

theorem word_released {j : Nat} (hbit : j ≠ L.bitWord b) (hheader : j ≠ b - 1) :
    (h.released b size).word j = h.word j := by
  rw [released, word_putHeader_ne _ hheader, word_clearBit _ hbit]

theorem sizeOf_released (hb : b - 1 < L.size) (hsize : size ≤ Header.maxSize) :
    (h.released b size).sizeOf b = size := sizeOf_putHeader _ hb _ hsize

theorem tagOf_released (hb : b - 1 < L.size) (hsize : size ≤ Header.maxSize) :
    (h.released b size).tagOf b = Tag.free := tagOf_putHeader _ hb _ hsize

theorem bit_released (hb : L.InHeap b) (hb₀ : L.heapStart < b) {i : Nat} (hi : L.HasBit i) :
    (h.released b size).bit i = (!decide (b = i) && h.bit i) := by
  rw [released, putHeader, bit_put_of_le _ hi (by rw [Header.words]; omega),
    bit_clearBit _ hb hi.1]

end Heap

/-! ### One block -/

namespace HeapM

open Heap

variable {h : Heap L} {b size : Nat} {last : Option Nat} {r : SweepReport}

/-- A block that was visited and is not tagged as free gets its bit back. -/
theorem sweepBlock_spare (hb : L.InHeap b) (hb₀ : L.heapStart < b) (hs : h.Spared b) :
    sweepBlock b size last r h = (.ok (last, r.survived), h.setBit b) := by
  have hbit : ask (·.bitAt b) h = (.ok (h.bit b), h) := ask_eq_ok (h.bitAt_eq_ok hb)
  have htag : ask (·.tagAt b) h = (.ok (h.tagOf b), h) :=
    ask_eq_ok (h.tagAt_eq_ok (by omega) (Nat.le_of_lt hb.lt_size))
  rw [sweepBlock, bind_apply hbit, bind_apply htag, if_pos (by simp [hs.1, hs.2]),
    bind_apply (setBit_apply h hb)]
  rfl

/-- Every other block is made free space. -/
theorem sweepBlock_release (hb : L.InHeap b) (hb₀ : L.heapStart < b) (hs : ¬ h.Spared b) :
    sweepBlock b size last r h =
      release b size last (if h.tagOf b = Tag.free then r else r.reclaim) h := by
  have hbit : ask (·.bitAt b) h = (.ok (h.bit b), h) := ask_eq_ok (h.bitAt_eq_ok hb)
  have htag : ask (·.tagAt b) h = (.ok (h.tagOf b), h) :=
    ask_eq_ok (h.tagAt_eq_ok (by omega) (Nat.le_of_lt hb.lt_size))
  have hcond : ¬ (!h.bit b && h.tagOf b != Tag.free) = true := by
    simpa [Spared] using hs
  rw [sweepBlock, bind_apply hbit, bind_apply htag, if_neg hcond]

/-- A free block that does not touch the one before it is linked behind that one. -/
theorem release_separate (hb : L.InHeap b) (hb₀ : L.heapStart < b)
    (hlast : ∀ f ∈ last, 0 < f ∧ f < L.size ∧
      f + (h.released b size).sizeOf f + Header.words ≠ b) :
    release b size last r h = (.ok (some b, r.separate size),
      (h.released b size).relinked last (VAddr.ofIndex b)) := by
  have hheader : writeHeader b Tag.free size (h.clearBit b) = (.ok (), h.released b size) :=
    writeHeader_apply _ (by omega) (Nat.le_of_lt hb.lt_size) ..
  cases last with
  | none =>
    rw [release, bind_apply (clearBit_apply h hb), bind_apply hheader]
    rfl
  | some f =>
    obtain ⟨hpos, hlt, hgap⟩ := hlast f rfl
    have hread : ask (·.sizeAt f) (h.released b size) =
        (.ok ((h.released b size).sizeOf f), h.released b size) :=
      ask_eq_ok (sizeAt_eq_ok _ hpos (Nat.le_of_lt hlt))
    rw [release, bind_apply (clearBit_apply h hb), bind_apply hheader, bind_apply hread,
      if_neg hgap, bind_apply (write_apply _ hlt _)]
    rfl

/-- A free block that touches the one before it is merged into that one. -/
theorem release_merge (hb : L.InHeap b) (hb₀ : L.heapStart < b) {f : Nat} (hpos : 0 < f)
    (hlt : f < L.size) (htouch : f + (h.released b size).sizeOf f + Header.words = b) :
    release b size (some f) r h = (.ok (some f, r.absorb size),
      (h.released b size).putHeader f Tag.free
        ((h.released b size).sizeOf f + size + Header.words)) := by
  have hread : ask (·.sizeAt f) (h.released b size) =
      (.ok ((h.released b size).sizeOf f), h.released b size) :=
    ask_eq_ok (sizeAt_eq_ok _ hpos (Nat.le_of_lt hlt))
  have hheader : writeHeader b Tag.free size (h.clearBit b) = (.ok (), h.released b size) :=
    writeHeader_apply _ (by omega) (Nat.le_of_lt hb.lt_size) ..
  rw [release, bind_apply (clearBit_apply h hb), bind_apply hheader, bind_apply hread,
    if_pos htouch, bind_apply (writeHeader_apply _ hpos (Nat.le_of_lt hlt) ..)]
  rfl

end HeapM

/-! ### What becomes of the blocks -/

namespace Heap

/-- What became of the blocks behind a sweep that started from `h₀` and has come to `stop`: those
    in `before` were met and those in `done` are left. -/
structure Gathered (h₀ : Heap L) (before : List Nat) (stop : Nat) (h : Heap L)
    (done : List Nat) : Prop where
  tiles_before : h₀.TilesTo L.heapStart before stop
  tiles : h.TilesTo L.heapStart done stop
  mem_before : ∀ b ∈ done, b ∈ before
  mem_done : ∀ b ∈ before, h₀.Spared b → b ∈ done
  /-- A block that was spared is as it was, header and payload. -/
  kept : ∀ b ∈ before, h₀.Spared b → ∀ j, h₀.Covers b j → h.word j = h₀.word j
  /-- All others are free space. -/
  tag : ∀ b ∈ done, ¬ h₀.Spared b → h.tagOf b = Tag.free
  /-- A block that was not spared lies inside a free one. -/
  inside : ∀ b ∈ before, ¬ h₀.Spared b → ∃ f ∈ done, ¬ h₀.Spared f ∧ f ≤ b ∧
    b + h₀.sizeOf b ≤ f + h.sizeOf f
  bit : ∀ i, L.HasBit i → h.bit i = if i ∈ before then decide (h₀.Spared i) else h₀.bit i
  ahead : ∀ j, stop ≤ j → h.word j = h₀.word j
  reserved : ∀ j, j < L.reserved → h.word j = h₀.word j

namespace Gathered

variable {h₀ h h' : Heap L} {before done : List Nat} {stop b : Nat}

/-- The first payload word of the block that is swept next. -/
theorem inHeap_next (hg : Gathered h₀ before stop h done) (hb : b = stop + 1)
    (hpos : 1 ≤ h₀.sizeOf b) (hend : b + h₀.sizeOf b ≤ L.heapEnd) :
    L.heapStart < b ∧ L.InHeap b ∧ b ∉ before ∧ b - 1 = stop := by
  have hle := hg.tiles.start_le
  refine ⟨by omega, ⟨by omega, by omega⟩, fun hmem => ?_, by omega⟩
  have := hg.tiles_before.bounds hmem
  omega

/-- The block that is swept next is as it was when the sweep started. -/
theorem next_eq (hg : Gathered h₀ before stop h done) (hb : b = stop + 1)
    (hpos : 1 ≤ h₀.sizeOf b) (hend : b + h₀.sizeOf b ≤ L.heapEnd) :
    h.sizeOf b = h₀.sizeOf b ∧ h.tagOf b = h₀.tagOf b ∧ h.bit b = h₀.bit b := by
  obtain ⟨_, hin, hnew, hprev⟩ := hg.inHeap_next hb hpos hend
  have hheader : h.word (b - 1) = h₀.word (b - 1) := hg.ahead _ (by omega)
  exact ⟨sizeOf_congr hheader, tagOf_congr hheader, by rw [hg.bit b hin.hasBit, if_neg hnew]⟩

theorem sizeOf_spared (hg : Gathered h₀ before stop h done) {c : Nat} (hc : c ∈ before)
    (hs : h₀.Spared c) : h.sizeOf c = h₀.sizeOf c := by
  have := hg.tiles_before.bounds hc
  exact sizeOf_congr (hg.kept c hc hs _ ⟨by omega, by omega⟩)

/-- No word of a block that was spared belongs to a free one. -/
theorem not_covers_spared (hg : Gathered h₀ before stop h done) {c f j : Nat} (hc : c ∈ before)
    (hs : h₀.Spared c) (hf : f ∈ done) (hfree : ¬ h₀.Spared f) (hj : h₀.Covers c j) :
    ¬ h.Covers f j := by
  intro hfj
  have hcj : h.Covers c j := by
    rw [Covers, hg.sizeOf_spared hc hs]
    exact hj
  have hcf := hg.tiles.eq_of_covers (hg.mem_done c hc hs) hf hcj hfj
  exact hfree (hcf ▸ hs)

theorem bit_concat (hg : Gathered h₀ before stop h done) (hnew : b ∉ before)
    (hbit : ∀ i, L.HasBit i → h'.bit i = if i = b then decide (h₀.Spared b) else h.bit i)
    (i : Nat) (hi : L.HasBit i) :
    h'.bit i = if i ∈ before ++ [b] then decide (h₀.Spared i) else h₀.bit i := by
  rw [hbit i hi]
  by_cases hib : i = b
  · subst hib
    simp
  · rw [if_neg hib, hg.bit i hi]
    simp [hib]

/-- Writing the link of a free block changes none of this. -/
theorem relinked (hg : Gathered h₀ before stop h done) {last : Option Nat}
    (hlast : ∀ f ∈ last, f ∈ done ∧ ¬ h₀.Spared f) (next : VAddr) :
    Gathered h₀ before stop (h.relinked last next) done := by
  have hres : L.reserved ≤ L.heapStart := Nat.le_add_right ..
  have hbounds : ∀ f ∈ last, L.heapStart < f ∧ f < stop := by
    intro f hf
    have := hg.tiles.bounds (hlast f hf).1
    omega
  have hword : ∀ j, last ≠ some j → (h.relinked last next).word j = h.word j :=
    fun j hj => word_relinked h hj next
  have hheader : ∀ c ∈ done, (h.relinked last next).word (c - 1) = h.word (c - 1) :=
    fun c hc => hword _ fun hf => hg.tiles.header_ne hc (hlast _ hf).1 rfl
  refine ⟨hg.tiles_before, ?tiles, hg.mem_before, hg.mem_done, ?kept, ?tag, ?inside, ?bit, ?ahead,
    ?reserved⟩
  case tiles =>
    exact hg.tiles.congr fun c hc => sizeOf_congr (hheader c hc)
  case kept =>
    intro c hc hs j hj
    rw [hword j fun hf => ?_]
    · exact hg.kept c hc hs j hj
    · obtain ⟨hmem, hfree⟩ := hlast j hf
      have := hg.tiles.bounds hmem
      exact hg.not_covers_spared hc hs hmem hfree hj ⟨by omega, by omega⟩
  case tag =>
    intro c hc hfree
    rw [tagOf_congr (hheader c hc)]
    exact hg.tag c hc hfree
  case inside =>
    intro c hc hfree
    obtain ⟨f, hf, hff, hfc, hcf⟩ := hg.inside c hc hfree
    exact ⟨f, hf, hff, hfc, by rw [sizeOf_congr (hheader f hf)]; exact hcf⟩
  case bit =>
    intro i hi
    rw [← hg.bit i hi]
    refine bit_congr (hword _ fun hf => ?_)
    have := hbounds _ hf
    have := hi.bitWord_lt
    omega
  case ahead =>
    intro j hj
    rw [hword j fun hf => ?_]
    · exact hg.ahead j hj
    · have := hbounds j hf
      omega
  case reserved =>
    intro j hj
    rw [hword j fun hf => ?_]
    · exact hg.reserved j hj
    · have := hbounds j hf
      omega

/-- A step that leaves the swept block as a block of its own. Besides bits it writes the header of
    that block at most. -/
theorem extend (hg : Gathered h₀ before stop h done) (hb : b = stop + 1)
    (hpos : 1 ≤ h₀.sizeOf b) (hend : b + h₀.sizeOf b ≤ L.heapEnd)
    (hword : ∀ j, j < L.reserved ∨ L.heapStart ≤ j → j ≠ b - 1 → h'.word j = h.word j)
    (hsize : h'.sizeOf b = h₀.sizeOf b)
    (hspared : h₀.Spared b → h'.word (b - 1) = h.word (b - 1))
    (htag : ¬ h₀.Spared b → h'.tagOf b = Tag.free)
    (hbit : ∀ i, L.HasBit i → h'.bit i = if i = b then decide (h₀.Spared b) else h.bit i) :
    Gathered h₀ (before ++ [b]) (b + h₀.sizeOf b) h' (done ++ [b]) := by
  obtain ⟨hlow, hin, hnew, hprev⟩ := hg.inHeap_next hb hpos hend
  have hres : L.reserved ≤ L.heapStart := Nat.le_add_right ..
  have hheader : ∀ c ∈ done, h'.word (c - 1) = h.word (c - 1) := by
    intro c hc
    have := hg.tiles.bounds hc
    exact hword _ (.inr (by omega)) (by omega)
  have hpast : ∀ j, stop < j → h'.word j = h₀.word j := by
    intro j hj
    rw [hword j (.inr (by omega)) (by omega)]
    exact hg.ahead j (by omega)
  refine ⟨?tiles_before, ?tiles, ?mem_before, ?mem_done, ?kept, ?tag, ?inside,
    hg.bit_concat hnew hbit, fun j hj => hpast j (by omega), ?reserved⟩
  case tiles_before =>
    exact tilesTo_concat_iff.2 ⟨hprev ▸ hg.tiles_before, by omega, hpos, rfl⟩
  case tiles =>
    refine tilesTo_concat_iff.2 ⟨hprev ▸ ?_, by omega, hsize ▸ hpos, by rw [hsize]⟩
    exact hg.tiles.congr fun c hc => sizeOf_congr (hheader c hc)
  case mem_before =>
    intro c hc
    rcases List.mem_append.1 hc with hc | hc
    · exact List.mem_append_left _ (hg.mem_before c hc)
    · exact List.mem_append_right _ hc
  case mem_done =>
    intro c hc hs
    rcases List.mem_append.1 hc with hc | hc
    · exact List.mem_append_left _ (hg.mem_done c hc hs)
    · exact List.mem_append_right _ hc
  case kept =>
    intro c hc hs j hj
    rcases List.mem_append.1 hc with hc | hc
    · have hcb := hg.tiles_before.bounds hc
      rw [← hg.kept c hc hs j hj]
      obtain ⟨hj₁, hj₂⟩ := hj
      exact hword j (.inr (by omega)) (by omega)
    · rw [List.mem_singleton] at hc
      subst hc
      obtain ⟨hj₁, _⟩ := hj
      -- Of a spared block only the header could have been written, and it was not.
      by_cases hjc : j = c - 1
      · rw [hjc, hspared hs]
        exact hg.ahead _ (by omega)
      · exact hpast j (by omega)
  case tag =>
    intro c hc hfree
    rcases List.mem_append.1 hc with hc | hc
    · rw [tagOf_congr (hheader c hc)]
      exact hg.tag c hc hfree
    · rw [List.mem_singleton] at hc
      exact hc ▸ htag (hc ▸ hfree)
  case inside =>
    intro c hc hfree
    rcases List.mem_append.1 hc with hc | hc
    · obtain ⟨f, hf, hff, hfc, hcf⟩ := hg.inside c hc hfree
      exact ⟨f, List.mem_append_left _ hf, hff, hfc, by rw [sizeOf_congr (hheader f hf)]; exact hcf⟩
    · rw [List.mem_singleton] at hc
      subst hc
      exact ⟨c, by simp, hfree, Nat.le_refl _, Nat.le_of_eq (by rw [hsize])⟩
  case reserved =>
    intro j hj
    rw [← hg.reserved j hj]
    exact hword j (.inl hj) (by omega)

/-- A step that merges the swept block into the free one before it. It writes the headers of the
    two. -/
theorem merge (hg : Gathered h₀ before stop h done) (hb : b = stop + 1)
    (hpos : 1 ≤ h₀.sizeOf b) (hend : b + h₀.sizeOf b ≤ L.heapEnd) (hnot : ¬ h₀.Spared b)
    {f : Nat} (hf : f ∈ done) (hfree : ¬ h₀.Spared f) (htouch : f + h.sizeOf f = stop)
    (hword : ∀ j, j < L.reserved ∨ L.heapStart ≤ j → j ≠ b - 1 → j ≠ f - 1 →
      h'.word j = h.word j)
    (hsize : h'.sizeOf f = h.sizeOf f + h₀.sizeOf b + Header.words)
    (htag : h'.tagOf f = Tag.free)
    (hbit : ∀ i, L.HasBit i → h'.bit i = if i = b then decide (h₀.Spared b) else h.bit i) :
    Gathered h₀ (before ++ [b]) (b + h₀.sizeOf b) h' done := by
  obtain ⟨hlow, hin, hnew, hprev⟩ := hg.inHeap_next hb hpos hend
  have hfb := hg.tiles.bounds hf
  have hres : L.reserved ≤ L.heapStart := Nat.le_add_right ..
  rw [Header.words] at hsize
  have hheader : ∀ c ∈ done, c ≠ f → h'.word (c - 1) = h.word (c - 1) := by
    intro c hc hcf
    have := hg.tiles.bounds hc
    exact hword _ (.inr (by omega)) (by omega) (by omega)
  refine ⟨?tiles_before, ?tiles, ?mem_before, ?mem_done, ?kept, ?tag, ?inside,
    hg.bit_concat hnew hbit, ?ahead, ?reserved⟩
  case tiles_before =>
    exact tilesTo_concat_iff.2 ⟨hprev ▸ hg.tiles_before, by omega, hpos, rfl⟩
  case tiles =>
    obtain ⟨front, rfl⟩ := hg.tiles.eq_concat hf htouch
    obtain ⟨hfront, hfpos, _, _⟩ := tilesTo_concat_iff.1 hg.tiles
    have hnodup := (List.nodup_append.1 hg.tiles.nodup).2.2
    refine tilesTo_concat_iff.2 ⟨hfront.congr fun c hc => ?_, hfpos, ?_, by rw [hsize]; omega⟩
    · exact sizeOf_congr (hheader c (by simp [hc]) (hnodup c hc f (by simp)))
    · rw [hsize, Header.minSize]
      omega
  case mem_before =>
    exact fun c hc => List.mem_append_left _ (hg.mem_before c hc)
  case mem_done =>
    intro c hc hs
    rcases List.mem_append.1 hc with hc | hc
    · exact hg.mem_done c hc hs
    · rw [List.mem_singleton] at hc
      exact absurd (hc ▸ hs) hnot
  case kept =>
    intro c hc hs j hj
    rcases List.mem_append.1 hc with hc | hc
    · have hcb := hg.tiles_before.bounds hc
      obtain ⟨hj₁, hj₂⟩ := hj
      rw [← hg.kept c hc hs j ⟨hj₁, hj₂⟩]
      -- The header that grows belongs to a free block, which covers no spared word.
      refine hword j (.inr (by omega)) (by omega) fun hjf => ?_
      exact hg.not_covers_spared hc hs hf hfree ⟨hj₁, hj₂⟩ ⟨by omega, by omega⟩
    · rw [List.mem_singleton] at hc
      exact absurd (hc ▸ hs) hnot
  case tag =>
    intro c hc hcfree
    by_cases hcf : c = f
    · exact hcf ▸ htag
    · rw [tagOf_congr (hheader c hc hcf)]
      exact hg.tag c hc hcfree
  case inside =>
    intro c hc hcfree
    rcases List.mem_append.1 hc with hc | hc
    · obtain ⟨e, he, hefree, hec, hce⟩ := hg.inside c hc hcfree
      refine ⟨e, he, hefree, hec, ?_⟩
      -- Free blocks only grow, so what lay inside one still does.
      by_cases hef : e = f
      · rw [hef, hsize]
        rw [hef] at hce
        omega
      · rw [sizeOf_congr (hheader e he hef)]
        exact hce
    · rw [List.mem_singleton] at hc
      subst hc
      -- The swept block lies inside the one that it was merged into.
      exact ⟨f, hf, hfree, by omega, by rw [hsize]; omega⟩
  case ahead =>
    intro j hj
    rw [hword j (.inr (by omega)) (by omega) (by omega)]
    exact hg.ahead j (by omega)
  case reserved =>
    intro j hj
    rw [← hg.reserved j hj]
    exact hword j (.inl hj) (by omega) (by omega)

end Gathered

end Heap

end ArenaHeap
