import ArenaHeap.Proofs.Ordered

namespace ArenaHeap

/-!
# First fit

What handing out a block does to a heap in order, and that the heap stays in order.

* `HeapM.tryAllocate_of_search` — whatever fit in the heap the search finds is handed out without
  faults; `Heap.awarded` is the heap afterwards.
* `HeapM.tryAllocate_eq_none`, `HeapM.tryAllocate_eq_some` — on a heap in order the request takes
  the first free block that is large enough.
* `Heap.Ordered.awarded` — the heap is in order again, with one block more if the found one was
  split.
* `Heap.Ordered.word_awarded` — no word changes but bits and words of free blocks.
-/

variable {L : Layout}

namespace Heap

/-! ### The heap after an award -/

/-- The heap with a found block taken off the list as a whole. -/
def awardedWhole (h : Heap L) (tag : Tag) (fit : Fit) : Heap L :=
  (h.relinked fit.pred (h.linkOf fit.block)).putHeader fit.block tag (h.sizeOf fit.block)

/-- The block that is left of a found one behind a request of `size` words. -/
def restOf (size : Nat) (fit : Fit) : Nat := fit.block + size + Header.words

/-- The heap with the lower part of a found block taken and the rest made a free block, which no
    link leads to yet. -/
def cut (h : Heap L) (tag : Tag) (size : Nat) (fit : Fit) : Heap L :=
  ((h.putHeader fit.block tag size).putHeader (restOf size fit) Tag.free
    (h.sizeOf fit.block - size - Header.words)).put (restOf size fit) (h.linkOf fit.block)

/-- The heap with the lower part of a found block taken and the rest put in its place. -/
def awardedPart (h : Heap L) (tag : Tag) (size : Nat) (fit : Fit) : Heap L :=
  (h.cut tag size fit).relinked fit.pred (VAddr.ofIndex (restOf size fit))

/-- Whether a found block is cut in two for a request: the rest has to have a header and room for
    a link. -/
def Splits (h : Heap L) (size : Nat) (fit : Fit) : Prop :=
  size + Header.words + Header.minSize ≤ h.sizeOf fit.block

instance (h : Heap L) (size : Nat) (fit : Fit) : Decidable (h.Splits size fit) :=
  inferInstanceAs (Decidable (_ ≤ _))

/-- The rest of a block that is cut starts behind the request and has room for a link. -/
theorem Splits.rest {h : Heap L} {size : Nat} {fit : Fit} (hs : h.Splits size fit) :
    restOf size fit = fit.block + size + 1 ∧ size + 2 ≤ h.sizeOf fit.block := ⟨rfl, hs⟩

/-- Counts a block handed out. -/
def countAllocation (h : Heap L) : Heap L :=
  { h with counters := { h.counters with allocations := h.counters.allocations + 1 } }

/-- The heap after a found block was handed out. -/
def awarded (h : Heap L) (tag : Tag) (size : Nat) (fit : Fit) : Heap L :=
  ((if h.Splits size fit then h.awardedPart tag size fit else h.awardedWhole tag fit).setBit
    fit.block).countAllocation

/-- The block that a request gets. -/
def grantOf (h : Heap L) (tag : Tag) (size : Nat) (fit : Fit) : Grant where
  tag := tag
  block := fit.block
  size := if h.Splits size fit then size else h.sizeOf fit.block

/-- A block on the list of free blocks, with those in front of it and those behind, that is the
    first one large enough for a request. -/
structure Fitting (h : Heap L) (blocks : List Nat) (size : Nat) (fit : Fit)
    (front back : List Nat) : Prop where
  free_eq : h.freeOf blocks = front ++ fit.block :: back
  size_le : size ≤ h.sizeOf fit.block
  front_lt : ∀ b ∈ front, h.sizeOf b < size
  pred_eq : fit.pred = front.getLast?

/-- A fit whose block, and the one in front of it, lie in the heap. -/
structure Within (h : Heap L) (fit : Fit) : Prop where
  low : L.heapStart < fit.block
  minSize_le : 1 ≤ h.sizeOf fit.block
  high : fit.block + h.sizeOf fit.block ≤ L.heapEnd
  pred : ∀ p ∈ fit.pred, L.InHeap p

variable {h : Heap L} {blocks front back : List Nat} {size : Nat} {fit : Fit} {tag : Tag}

theorem Within.inHeap (hw : h.Within fit) : L.InHeap fit.block := by
  obtain ⟨hlow, hmin, hhigh, _⟩ := hw
  exact ⟨by omega, by omega⟩

@[simp] theorem word_countAllocation (h : Heap L) (i : Nat) :
    h.countAllocation.word i = h.word i := rfl

@[simp] theorem bit_countAllocation (h : Heap L) (i : Nat) :
    h.countAllocation.bit i = h.bit i := rfl

namespace Fitting

/-- The first fit, if there is one, fits. -/
theorem of_firstFit (hf : h.firstFit size none (h.freeOf blocks) = some fit) :
    ∃ front back, h.Fitting blocks size fit front back := by
  obtain ⟨front, back, hfree, hsize, hfront, hpred⟩ := firstFit_eq_some hf
  exact ⟨front, back, hfree, hsize, hfront, by simpa using hpred⟩

theorem mem_free (hf : h.Fitting blocks size fit front back) :
    fit.block ∈ blocks ∧ h.bit fit.block = false := by
  rw [← mem_freeOf, hf.free_eq]
  simp

theorem mem_free_of_mem_front (hf : h.Fitting blocks size fit front back) {b : Nat}
    (hb : b ∈ front) : b ∈ blocks ∧ h.bit b = false := by
  rw [← mem_freeOf, hf.free_eq]
  simp [hb]

theorem mem_free_of_mem_back (hf : h.Fitting blocks size fit front back) {b : Nat}
    (hb : b ∈ back) : b ∈ blocks ∧ h.bit b = false := by
  rw [← mem_freeOf, hf.free_eq]
  simp [hb]

theorem mem_front_of_pred (hf : h.Fitting blocks size fit front back) {b : Nat}
    (hb : fit.pred = some b) : b ∈ front := by
  rw [hf.pred_eq] at hb
  exact List.mem_of_getLast? hb

/-- The block in front of the found one on the list is free, too. -/
theorem mem_free_of_pred (hf : h.Fitting blocks size fit front back) {b : Nat}
    (hb : fit.pred = some b) : b ∈ blocks ∧ h.bit b = false :=
  hf.mem_free_of_mem_front (hf.mem_front_of_pred hb)

theorem within (hf : h.Fitting blocks size fit front back) (ho : h.Ordered blocks) :
    h.Within fit := by
  obtain ⟨hlow, hmin, hhigh⟩ := ho.bounds hf.mem_free.1
  exact ⟨hlow, hmin, hhigh, fun p hp => ho.inHeap (hf.mem_free_of_pred hp).1⟩

theorem nodup (hf : h.Fitting blocks size fit front back) (ho : h.Ordered blocks) :
    (front ++ fit.block :: back).Nodup := by
  rw [← hf.free_eq]
  exact ho.tiles.nodup.filter _

/-- The blocks around a fitting one, those on the list being the ones in front and behind. -/
theorem exists_around (hf : h.Fitting blocks size fit front back) :
    ∃ xs ys, blocks = xs ++ fit.block :: ys ∧ h.freeOf xs = front ∧ h.freeOf ys = back := by
  obtain ⟨xs, zs, hblocks, hxs, hzs⟩ := List.filter_eq_append_iff.1 hf.free_eq
  obtain ⟨used, ys, hcut, hused, _, hys⟩ := List.filter_eq_cons_iff.1 hzs
  refine ⟨xs ++ used, ys, by rw [hblocks, hcut, List.append_assoc], ?_, hys⟩
  have hnone : h.freeOf used = [] := List.filter_eq_nil_iff.2 hused
  rw [freeOf, List.filter_append, hxs]
  exact (congrArg _ hnone).trans (List.append_nil _)

end Fitting

/-! ### Words after an award -/

theorem word_cut {j : Nat} (hheader : j ≠ fit.block - 1) (hrest : j ≠ restOf size fit - 1)
    (hlink : j ≠ restOf size fit) : (h.cut tag size fit).word j = h.word j := by
  rw [cut, word_put_ne _ (Ne.symm hlink), word_putHeader_ne _ hrest,
    word_putHeader_ne _ hheader]

/-- An award writes two headers, two links and one bit at most. -/
theorem word_awarded_of_ne {j : Nat} (hbit : j ≠ L.bitWord fit.block)
    (hheader : j ≠ fit.block - 1)
    (hrest : h.Splits size fit → j ≠ restOf size fit - 1 ∧ j ≠ restOf size fit)
    (hpred : fit.pred ≠ some j) : (h.awarded tag size fit).word j = h.word j := by
  rw [awarded, word_countAllocation, word_setBit _ hbit]
  by_cases hs : h.Splits size fit
  · rw [if_pos hs, awardedPart, word_relinked _ hpred, word_cut hheader (hrest hs).1 (hrest hs).2]
  · rw [if_neg hs, awardedWhole, word_putHeader_ne _ hheader, word_relinked _ hpred]

namespace Fitting

/-- The block found and the one in front of it on the list share no word. -/
theorem pred_disjoint (hf : h.Fitting blocks size fit front back) (ho : h.Ordered blocks) {p : Nat}
    (hp : fit.pred = some p) :
    p + h.sizeOf p < fit.block ∨ fit.block + h.sizeOf fit.block < p := by
  have hfront := hf.mem_front_of_pred hp
  refine ho.tiles.disjoint (hf.mem_free_of_mem_front hfront).1 hf.mem_free.1 ?_
  rintro rfl
  have := hf.nodup ho
  rw [List.nodup_append] at this
  exact this.2.2 _ hfront _ (by simp) rfl

theorem pred_ne (hf : h.Fitting blocks size fit front back) (ho : h.Ordered blocks) {j : Nat}
    (hj : fit.block ≤ j + 1) (hj' : j < fit.block + h.sizeOf fit.block) :
    fit.pred ≠ some j := by
  intro hp
  have := hf.pred_disjoint ho hp
  have := (ho.bounds (hf.mem_free_of_pred hp).1).2.1
  omega

theorem grant_size_le (hf : h.Fitting blocks size fit front back) :
    (h.grantOf tag size fit).size ≤ Header.maxSize := by
  have := h.sizeOf_le fit.block
  have := hf.size_le
  simp only [grantOf]
  split <;> omega

variable (ho : h.Ordered blocks) (hf : h.Fitting blocks size fit front back)

include ho hf

/-- The block handed out has the header that was asked for. -/
theorem word_header (hpos : 1 ≤ size) : (h.awarded tag size fit).word (fit.block - 1) =
    Header.ofSize tag (h.grantOf tag size fit).size := by
  have hb := ho.bounds hf.mem_free.1
  have hbit : fit.block - 1 ≠ L.bitWord fit.block := by
    have := (ho.inHeap hf.mem_free.1).hasBit.bitWord_lt
    omega
  have hlt : fit.block - 1 < L.size := by
    rw [Layout.heapEnd] at hb
    omega
  -- The relinked word belongs to another block, so it is not this header.
  have hpred : fit.pred ≠ some (fit.block - 1) := hf.pred_ne ho (by omega) (by omega)
  rw [awarded, word_countAllocation, word_setBit _ hbit, grantOf]
  by_cases hs : h.Splits size fit
  · rw [if_pos hs, if_pos hs, awardedPart, word_relinked _ hpred, cut,
      word_put_ne _ (by rw [restOf]; omega),
      word_putHeader_ne _ (by rw [restOf, Header.words]; omega), putHeader]
    exact h.word_put_self hlt _
  · rw [if_neg hs, if_neg hs, awardedWhole, putHeader]
    exact word_put_self _ hlt _

/-- The rest of a block that was cut is a free block. -/
theorem word_rest_header (hs : h.Splits size fit) :
    (h.awarded tag size fit).word (restOf size fit - 1) =
      Header.ofSize Tag.free (h.sizeOf fit.block - size - Header.words) := by
  have hb := ho.bounds hf.mem_free.1
  have hbit := (ho.inHeap hf.mem_free.1).hasBit.bitWord_lt
  obtain ⟨hrest, hroom⟩ := hs.rest
  have hpred : fit.pred ≠ some (restOf size fit - 1) := hf.pred_ne ho (by omega) (by omega)
  rw [awarded, word_countAllocation, word_setBit _ (by omega), if_pos hs, awardedPart,
    word_relinked _ hpred, cut, word_put_ne _ (by omega), putHeader]
  refine word_put_self _ ?_ _
  rw [Layout.heapEnd] at hb
  omega

/-- The rest of a block that was cut goes on where the block did. -/
theorem word_rest_link (hs : h.Splits size fit) :
    (h.awarded tag size fit).word (restOf size fit) = h.linkOf fit.block := by
  have hb := ho.bounds hf.mem_free.1
  have hbit := (ho.inHeap hf.mem_free.1).hasBit.bitWord_lt
  obtain ⟨hrest, hroom⟩ := hs.rest
  have hpred : fit.pred ≠ some (restOf size fit) := hf.pred_ne ho (by omega) (by omega)
  rw [awarded, word_countAllocation, word_setBit _ (by omega), if_pos hs, awardedPart,
    word_relinked _ hpred, cut]
  refine word_put_self _ ?_ _
  rw [Layout.heapEnd] at hb
  omega

/-- The one bit that changes is that of the block handed out. -/
theorem bit_awarded {i : Nat} (hi : L.HasBit i) :
    (h.awarded tag size fit).bit i = (decide (fit.block = i) || h.bit i) := by
  have hin := ho.inHeap hf.mem_free.1
  have hb := ho.bounds hf.mem_free.1
  have hlt := hi.bitWord_lt
  rw [awarded, bit_countAllocation, bit_setBit _ hin hi.1]
  congr 1
  refine bit_congr ?_
  -- Headers and links lie behind the bitmap.
  have hpred : fit.pred ≠ some (L.bitWord i) := by
    intro hp
    have := (ho.bounds (hf.mem_free_of_pred hp).1).1
    omega
  by_cases hs : h.Splits size fit
  · rw [if_pos hs, awardedPart, word_relinked _ hpred,
      word_cut (by omega) (by rw [restOf, Header.words]; omega) (by rw [restOf]; omega)]
  · rw [if_neg hs, awardedWhole, word_putHeader_ne _ (by omega), word_relinked _ hpred]

/-- Headers of the other blocks are as they were. -/
theorem word_header_of_ne {c : Nat} (hc : c ∈ blocks) (hne : c ≠ fit.block) :
    (h.awarded tag size fit).word (c - 1) = h.word (c - 1) := by
  have hb := ho.bounds hf.mem_free.1
  have hcb := ho.bounds hc
  have hbit := (ho.inHeap hf.mem_free.1).hasBit.bitWord_lt
  refine word_awarded_of_ne (by omega) (by omega) ?_ ?_
  · intro hs
    obtain ⟨hrest, hroom⟩ := hs.rest
    rcases ho.tiles.disjoint hc hf.mem_free.1 hne with hlt | hlt <;> omega
  · intro hp
    have hmem := (hf.mem_free_of_pred hp).1
    have hpb := ho.bounds hmem
    -- A link is a payload word, and a payload word of one block is no header of another.
    by_cases hcp : c = c - 1
    · omega
    · rcases ho.tiles.disjoint hc hmem hcp with hlt | hlt <;> omega

/-- Links of free blocks off the changed places are as they were. -/
theorem word_link_of_ne {c : Nat} (hc : c ∈ blocks) (hne : c ≠ fit.block)
    (hpred : fit.pred ≠ some c) : (h.awarded tag size fit).word c = h.word c := by
  have hb := ho.bounds hf.mem_free.1
  have hcb := ho.bounds hc
  have hbit := (ho.inHeap hf.mem_free.1).hasBit.bitWord_lt
  refine word_awarded_of_ne (by omega) ?_ ?_ hpred
  · rcases ho.tiles.disjoint hc hf.mem_free.1 hne with hlt | hlt <;> omega
  · intro hs
    obtain ⟨hrest, hroom⟩ := hs.rest
    rcases ho.tiles.disjoint hc hf.mem_free.1 hne with hlt | hlt <;> omega

/-- The list runs through the blocks in front of the found one as before, and then on to the
    rest of that one or past it. -/
theorem links_front (hpos : 1 ≤ size) : (h.awarded tag size fit).Links
    ((h.awarded tag size fit).heads.get commonList) front
    (if h.Splits size fit then VAddr.ofIndex (restOf size fit) else h.linkOf fit.block) := by
  have hb := ho.bounds hf.mem_free.1
  have hbit := (ho.inHeap hf.mem_free.1).hasBit.bitWord_lt
  have hnodup := List.nodup_append.1 (hf.nodup ho)
  have hin : ∀ c ∈ front, c < L.size := fun c hc =>
    (ho.inHeap (hf.mem_free_of_mem_front hc).1).lt_size
  have hsep : ∀ c ∈ front, L.heapStart < c ∧ 1 ≤ h.sizeOf c ∧
      (c + h.sizeOf c < fit.block ∨ fit.block + h.sizeOf fit.block < c) := by
    intro c hc
    have hmem := (hf.mem_free_of_mem_front hc).1
    exact ⟨(ho.bounds hmem).1, (ho.bounds hmem).2.1,
      ho.tiles.disjoint hmem hf.mem_free.1 fun hcb => hnodup.2.2 c hc _ (by simp) hcb⟩
  have hlinks : h.Links (h.heads.get commonList) front (VAddr.ofIndex fit.block) := by
    have := ho.links
    rw [hf.free_eq, links_append_iff] at this
    obtain ⟨middle, hfront, hmid, _⟩ := this
    rwa [hmid] at hfront
  -- Neither the header nor the bit of the found block is a link of the blocks in front.
  have hkeep : ∀ g : Heap L, ∀ v : VAddr, g.Links (g.heads.get commonList) front v →
      (g.setBit fit.block).countAllocation.Links
        ((g.setBit fit.block).countAllocation.heads.get commonList) front v := by
    intro g v hg
    refine hg.congr fun c hc => ?_
    have := (hsep c hc).1
    rw [word_countAllocation, word_setBit _ (by omega)]
  by_cases hs : h.Splits size fit
  · obtain ⟨hrest, hroom⟩ := hs.rest
    have hcut : (h.cut tag size fit).Links ((h.cut tag size fit).heads.get commonList) front
        (VAddr.ofIndex fit.block) := by
      -- Cutting writes between the ends of the found block only.
      refine hlinks.congr fun c hc => ?_
      have := hsep c hc
      exact word_cut (by omega) (by omega) (by omega)
    rw [if_pos hs, awarded, if_pos hs, awardedPart, hf.pred_eq]
    exact hkeep _ _ (hcut.relinked hnodup.1 hin _)
  · rw [if_neg hs, awarded, if_neg hs, awardedWhole, hf.pred_eq]
    refine hkeep _ _ ((hlinks.relinked hnodup.1 hin _).congr fun c hc => ?_)
    have := hsep c hc
    exact word_putHeader_ne _ (by omega) _ _

end Fitting

/-! ### Order after an award -/

namespace Ordered

variable (ho : h.Ordered blocks) (hf : h.Fitting blocks size fit front back) (hpos : 1 ≤ size)

include ho hf hpos

theorem sizeOf_awarded : (h.awarded tag size fit).sizeOf fit.block =
    (h.grantOf tag size fit).size := by
  rw [sizeOf, Header.words, hf.word_header ho hpos, Header.size_ofSize _ hf.grant_size_le]

theorem tagOf_awarded : (h.awarded tag size fit).tagOf fit.block = tag := by
  rw [tagOf, Header.words, hf.word_header ho hpos, Header.tag_ofSize _ hf.grant_size_le]

omit hpos in
theorem sizeOf_rest (hs : h.Splits size fit) : (h.awarded tag size fit).sizeOf
    (restOf size fit) = h.sizeOf fit.block - size - Header.words := by
  have := h.sizeOf_le fit.block
  rw [sizeOf, Header.words, hf.word_rest_header ho hs, Header.size_ofSize _ (by omega),
    Header.words]

omit hpos in
theorem tagOf_rest (hs : h.Splits size fit) :
    (h.awarded tag size fit).tagOf (restOf size fit) = Tag.free := by
  have := h.sizeOf_le fit.block
  rw [tagOf, Header.words, hf.word_rest_header ho hs, Header.tag_ofSize _ (by omega)]

omit hpos in
/-- The rest of a cut block lies inside it, so it was no block before. -/
theorem rest_not_mem (hs : h.Splits size fit) : restOf size fit ∉ blocks := by
  intro hmem
  obtain ⟨hrest, hroom⟩ := hs.rest
  have := (ho.bounds hmem).2.1
  rcases ho.tiles.disjoint hf.mem_free.1 hmem (by omega) with hlt | hlt <;> omega

omit hpos in
/-- All other blocks keep their bit. -/
theorem bit_awarded_of_ne {c : Nat} (hc : c ∈ blocks) (hne : c ≠ fit.block) :
    (h.awarded tag size fit).bit c = h.bit c := by
  rw [hf.bit_awarded ho (ho.inHeap hc).hasBit, decide_eq_false (Ne.symm hne), Bool.false_or]

omit hpos in
theorem bit_awarded_self : (h.awarded tag size fit).bit fit.block = true := by
  rw [hf.bit_awarded ho (ho.inHeap hf.mem_free.1).hasBit, decide_eq_true rfl, Bool.true_or]

omit hpos in
theorem bit_rest (hs : h.Splits size fit) :
    (h.awarded tag size fit).bit (restOf size fit) = false := by
  have hb := ho.bounds hf.mem_free.1
  obtain ⟨hrest, hroom⟩ := hs.rest
  have hin : L.HasBit (restOf size fit) :=
    Layout.InHeap.hasBit ⟨by omega, by omega⟩
  rw [hf.bit_awarded ho hin, decide_eq_false (by omega), Bool.false_or]
  -- A set bit belongs to a block, and the rest is none yet.
  by_contra hset
  exact ho.rest_not_mem hf hs (ho.mem_of_bit _ hin (by simpa using hset))

omit hpos in
/-- Behind the found block the list runs as before. -/
theorem links_back : (h.awarded tag size fit).Links (h.linkOf fit.block) back VAddr.null := by
  have hlinks := ho.links
  rw [hf.free_eq, links_append_iff] at hlinks
  obtain ⟨middle, _, _, hback⟩ := hlinks
  have hnodup := hf.nodup ho
  refine hback.congr fun c hc => hf.word_link_of_ne ho (hf.mem_free_of_mem_back hc).1 ?_ ?_
  · rintro rfl
    exact (List.nodup_cons.1 (List.nodup_append.1 hnodup).2.1).1 hc
  · intro hp
    exact (List.nodup_append.1 hnodup).2.2 c (hf.mem_front_of_pred hp) c (by simp [hc]) rfl

omit ho hf hpos in
theorem heads_awarded {n : Fin listCount} (hn : n ≠ commonList) :
    (h.awarded tag size fit).heads.get n = h.heads.get n := by
  show ((if h.Splits size fit then h.awardedPart tag size fit
    else h.awardedWhole tag fit)).heads.get n = h.heads.get n
  split
  · exact heads_relinked _ _ _ hn
  · exact heads_relinked _ _ _ hn

omit ho hf hpos in
/-- One more block was handed out. -/
theorem counters_awarded : (h.awarded tag size fit).counters =
    { h.counters with allocations := h.counters.allocations + 1 } := by
  have hrelinked : ∀ (g : Heap L) (v : VAddr), (g.relinked fit.pred v).counters = g.counters :=
    fun g v => by cases fit.pred <;> rfl
  have hfound : (if h.Splits size fit then h.awardedPart tag size fit
      else h.awardedWhole tag fit).counters = h.counters := by
    split
    · exact hrelinked _ _
    · exact hrelinked _ _
  rw [awarded, countAllocation]
  simp only [setBit, counters_put, hfound]

omit hpos in
theorem mem_of_bit_awarded (i : Nat) (hi : L.HasBit i)
    (hset : (h.awarded tag size fit).bit i = true) : i ∈ blocks := by
  rw [hf.bit_awarded ho hi, Bool.or_eq_true, decide_eq_true_eq] at hset
  rcases hset with rfl | hset
  · exact hf.mem_free.1
  · exact ho.mem_of_bit i hi hset

omit hpos in
theorem tagOf_free_awarded {c : Nat} (hc : c ∈ blocks)
    (hclear : (h.awarded tag size fit).bit c = false) :
    (h.awarded tag size fit).tagOf c = Tag.free := by
  have hne : c ≠ fit.block := by
    rintro rfl
    rw [ho.bit_awarded_self hf] at hclear
    exact Bool.noConfusion hclear
  rw [ho.bit_awarded_of_ne hf hc hne] at hclear
  rw [tagOf_congr (hf.word_header_of_ne ho hc hne)]
  exact ho.tagOf_free c hc hclear

omit hpos in
/-- Away from the found block the list of free blocks is the same. -/
theorem freeOf_awarded {xs : List Nat} (hsub : ∀ c ∈ xs, c ∈ blocks) (hne : fit.block ∉ xs) :
    (h.awarded tag size fit).freeOf xs = h.freeOf xs :=
  freeOf_congr fun c hc => ho.bit_awarded_of_ne hf (hsub c hc) fun hcb => hne (hcb ▸ hc)

omit hpos in
/-- No bit is cleared, so neighbours of which one was in use are still like that. -/
theorem apart_awarded {b c : Nat} (hb : b ∈ blocks) (hc : c ∈ blocks)
    (hnext : c = b + h.sizeOf b + Header.words) :
    (h.awarded tag size fit).bit b = true ∨ (h.awarded tag size fit).bit c = true := by
  rw [hf.bit_awarded ho (ho.inHeap hb).hasBit, hf.bit_awarded ho (ho.inHeap hc).hasBit,
    Bool.or_eq_true, Bool.or_eq_true]
  rcases ho.apart b hb c hc hnext with hset | hset
  · exact .inl (.inr hset)
  · exact .inr (.inr hset)

section Around

variable {xs ys : List Nat} (hblocks : blocks = xs ++ fit.block :: ys)

include hblocks

omit hf hpos in
theorem not_mem_around : fit.block ∉ xs ∧ fit.block ∉ ys := by
  have hnodup := List.nodup_append.1 (hblocks ▸ ho.tiles.nodup)
  exact ⟨fun hx => hnodup.2.2 _ hx _ (List.mem_cons_self ..) rfl,
    (List.nodup_cons.1 hnodup.2.1).1⟩

omit hpos in
/-- In front of the found block and behind it the list of free blocks is the same. -/
theorem freeOf_around : (h.awarded tag size fit).freeOf xs = h.freeOf xs ∧
    (h.awarded tag size fit).freeOf ys = h.freeOf ys := by
  obtain ⟨hxb, hyb⟩ := ho.not_mem_around hblocks
  exact ⟨ho.freeOf_awarded hf (fun c hc => by rw [hblocks]; simp [hc]) hxb,
    ho.freeOf_awarded hf (fun c hc => by rw [hblocks]; simp [hc]) hyb⟩

omit hpos in
/-- Without the found block the list of free blocks is shorter by one. -/
theorem freeOf_awarded_whole :
    (h.awarded tag size fit).freeOf blocks = h.freeOf xs ++ h.freeOf ys := by
  obtain ⟨hx, hy⟩ := ho.freeOf_around hf hblocks
  rw [hblocks, freeOf, List.filter_append, List.filter_cons_of_neg
    (by simp [ho.bit_awarded_self hf])]
  exact congrArg₂ _ hx hy

omit hpos in
/-- The rest of the found block has the place on the list that the block had. -/
theorem freeOf_awarded_part (hs : h.Splits size fit) :
    (h.awarded tag size fit).freeOf (xs ++ fit.block :: restOf size fit :: ys) =
      h.freeOf xs ++ restOf size fit :: h.freeOf ys := by
  obtain ⟨hx, hy⟩ := ho.freeOf_around hf hblocks
  rw [freeOf, List.filter_append, List.filter_cons_of_neg (by simp [ho.bit_awarded_self hf]),
    List.filter_cons_of_pos (by simp [ho.bit_rest hf hs])]
  exact congrArg₂ (fun front back => front ++ restOf size fit :: back) hx hy

/-- The two parts of the found block fill its words. -/
theorem tiles_awarded_part (hs : h.Splits size fit) : (h.awarded tag size fit).TilesTo
    L.heapStart (xs ++ fit.block :: restOf size fit :: ys) L.heapEnd := by
  obtain ⟨hxb, hyb⟩ := ho.not_mem_around hblocks
  obtain ⟨hrest, hroom⟩ := hs.rest
  have hsize : (h.awarded tag size fit).sizeOf fit.block = size := by
    rw [ho.sizeOf_awarded hf hpos, grantOf, if_pos hs]
  have hsizeRest : (h.awarded tag size fit).sizeOf (restOf size fit) =
      h.sizeOf fit.block - size - 1 := ho.sizeOf_rest hf hs
  -- Of all blocks only the found one changes its size.
  have hother : ∀ c ∈ blocks, c ≠ fit.block →
      (h.awarded tag size fit).sizeOf c = h.sizeOf c :=
    fun c hc hne => sizeOf_congr (hf.word_header_of_ne ho hc hne)
  have htiles := ho.tiles
  rw [hblocks] at htiles
  obtain ⟨middle, hfront, hb, _, hback⟩ := tilesTo_append_iff.1 htiles
  refine tilesTo_append_iff.2 ⟨middle, ?_, hb, ?_, ?_, ?_, ?_⟩
  · exact hfront.congr fun c hc =>
      hother c (by rw [hblocks]; simp [hc]) fun hcb => hxb (hcb ▸ hc)
  · rw [hsize]
    exact hpos
  · rw [hsize, hrest, Header.words]
  · rw [hsizeRest, Header.minSize]
    omega
  · rw [hsizeRest, show restOf size fit + (h.sizeOf fit.block - size - 1) =
      fit.block + h.sizeOf fit.block by omega]
    exact hback.congr fun c hc =>
      hother c (by rw [hblocks]; simp [hc]) fun hcb => hyb (hcb ▸ hc)

end Around

/-- A block that was handed out as a whole leaves the list, and nothing else happens. -/
theorem awarded_whole (hs : ¬ h.Splits size fit) : (h.awarded tag size fit).Ordered blocks := by
  have hsize : ∀ c ∈ blocks, (h.awarded tag size fit).sizeOf c = h.sizeOf c := by
    intro c hc
    by_cases hcb : c = fit.block
    · rw [hcb, ho.sizeOf_awarded hf hpos, grantOf, if_neg hs]
    · exact sizeOf_congr (hf.word_header_of_ne ho hc hcb)
  refine ⟨ho.tiles.congr hsize, ho.mem_of_bit_awarded hf, fun c => ho.tagOf_free_awarded hf,
    ?links, ?apart, fun n hn => (heads_awarded hn).trans (ho.heads_null n hn)⟩
  case links =>
    obtain ⟨xs, ys, hblocks, hxs, hys⟩ := hf.exists_around
    rw [ho.freeOf_awarded_whole hf hblocks, hxs, hys]
    -- The path skips the found block: it goes on where that one pointed.
    refine links_append_iff.2 ⟨h.linkOf fit.block, ?_, ho.links_back hf⟩
    have hfront : (h.awarded tag size fit).Links _ front _ := hf.links_front ho hpos
    rwa [if_neg hs] at hfront
  case apart =>
    intro b hb c hc hnext
    rw [hsize b hb] at hnext
    exact ho.apart_awarded hf hb hc hnext

/-- A block that was cut is two blocks afterwards, of which the second has its place on the
    list. -/
theorem awarded_part (hs : h.Splits size fit) {xs ys : List Nat}
    (hblocks : blocks = xs ++ fit.block :: ys) (hxs : h.freeOf xs = front)
    (hys : h.freeOf ys = back) :
    (h.awarded tag size fit).Ordered (xs ++ fit.block :: restOf size fit :: ys) := by
  obtain ⟨hrest, hroom⟩ := hs.rest
  have hsizeRest : (h.awarded tag size fit).sizeOf (restOf size fit) =
      h.sizeOf fit.block - size - 1 := ho.sizeOf_rest hf hs
  have hmem : ∀ c, c ∈ xs ++ fit.block :: restOf size fit :: ys ↔
      c ∈ blocks ∨ c = restOf size fit := by
    intro c
    rw [hblocks]
    simp only [List.mem_append, List.mem_cons]
    tauto
  refine ⟨ho.tiles_awarded_part hf hpos hblocks hs, ?mem_of_bit, ?tagOf_free, ?links, ?apart,
    fun n hn => (heads_awarded hn).trans (ho.heads_null n hn)⟩
  case mem_of_bit => exact fun i hi hset => (hmem i).2 (.inl (ho.mem_of_bit_awarded hf i hi hset))
  case tagOf_free =>
    intro c hc hclear
    rcases (hmem c).1 hc with hc | rfl
    · exact ho.tagOf_free_awarded hf hc hclear
    · exact ho.tagOf_rest hf hs
  case links =>
    rw [ho.freeOf_awarded_part hf hblocks hs, hxs, hys]
    refine links_append_iff.2 ⟨VAddr.ofIndex (restOf size fit), ?_, rfl, ?_⟩
    · have hfront : (h.awarded tag size fit).Links _ front _ := hf.links_front ho hpos
      rwa [if_pos hs] at hfront
    · rw [linkOf, hf.word_rest_link ho hs]
      exact ho.links_back hf
  case apart =>
    -- The rest stands between the found block, which is in use now, and the one behind it,
    -- which was in use before.
    intro b hb c hc hnext
    by_cases hbf : b = fit.block
    · exact .inl (hbf ▸ ho.bit_awarded_self hf)
    rcases (hmem b).1 hb with hb | rfl <;> rcases (hmem c).1 hc with hc | rfl
    · rw [sizeOf_congr (hf.word_header_of_ne ho hb hbf)] at hnext
      exact ho.apart_awarded hf hb hc hnext
    · rw [sizeOf_congr (hf.word_header_of_ne ho hb hbf), Header.words] at hnext
      have := (ho.bounds hb).2.1
      rcases ho.tiles.disjoint hb hf.mem_free.1 hbf with hlt | hlt <;> omega
    · rw [hsizeRest, Header.words] at hnext
      have hnext' : c = fit.block + h.sizeOf fit.block + Header.words := by
        rw [Header.words]
        omega
      have hset := (ho.apart _ hf.mem_free.1 c hc hnext').resolve_left (by simp [hf.mem_free.2])
      exact .inr (by rw [hf.bit_awarded ho (ho.inHeap hc).hasBit, hset, Bool.or_true])
    · omega

/-- **Order is kept.** However the found block was served, the heap is in order afterwards, and
    the block handed out is one of its blocks. -/
theorem awarded : ∃ after, (h.awarded tag size fit).Ordered after ∧ fit.block ∈ after := by
  by_cases hs : h.Splits size fit
  · obtain ⟨xs, ys, hblocks, hxs, hys⟩ := hf.exists_around
    exact ⟨_, ho.awarded_part hf hpos hs hblocks hxs hys, by simp⟩
  · exact ⟨blocks, ho.awarded_whole hf hpos hs, hf.mem_free.1⟩

omit hpos in
/-- **Only free space is touched.** A word outside the bitmap that belongs to no free block is as
    it was. -/
theorem word_awarded {j : Nat} (hbitmap : j < L.reserved ∨ L.heapStart ≤ j)
    (hused : ∀ c ∈ blocks, h.bit c = false → ¬ h.Covers c j) :
    (h.awarded tag size fit).word j = h.word j := by
  have hb := ho.bounds hf.mem_free.1
  have hfound : ¬ (fit.block ≤ j + 1 ∧ j < fit.block + h.sizeOf fit.block) :=
    hused _ hf.mem_free.1 hf.mem_free.2
  refine word_awarded_of_ne ((ho.inHeap hf.mem_free.1).ne_bitWord hbitmap) (by omega) ?_ ?_
  · intro hs
    obtain ⟨hrest, hroom⟩ := hs.rest
    omega
  · intro hp
    -- The word that is relinked is the link of a free block.
    have hfront := hf.mem_free_of_pred hp
    have := (ho.bounds hfront.1).2.1
    exact hused j hfront.1 hfront.2 ⟨by omega, by omega⟩

end Ordered

end Heap

/-! ### The request -/

namespace HeapM

open Heap

variable {h : Heap L} {blocks front back : List Nat} {size : Nat} {fit : Fit} {tag : Tag}

/-- An award of a fit that lies in the heap meets no fault. -/
theorem award_apply (hw : h.Within fit) :
    award tag size fit h = (.ok (), if h.Splits size fit then h.awardedPart tag size fit
      else h.awardedWhole tag fit) := by
  obtain ⟨hlow, hmin, hhigh, hin⟩ := hw
  rw [Layout.heapEnd] at hhigh
  have hlt : fit.block < L.size := by omega
  have hpred : ∀ p ∈ fit.pred, p < L.size := fun p hp => (hin p hp).lt_size
  have hlink : ask (·.link fit.block) h = (.ok (h.linkOf fit.block), h) :=
    ask_eq_ok (h.link_eq_ok hlt)
  have hsize : ask (·.sizeAt fit.block) h = (.ok (h.sizeOf fit.block), h) :=
    ask_eq_ok (h.sizeAt_eq_ok (by omega) (by omega))
  rw [award, bind_apply hlink, bind_apply hsize]
  by_cases hs : h.Splits size fit
  · obtain ⟨_, hroom⟩ := hs.rest
    have hrest : fit.block + size + Header.words < L.size := by
      rw [Header.words]
      omega
    rw [if_neg (Nat.not_lt.2 hs), if_pos hs,
      bind_apply (writeHeader_apply _ (by omega) (Nat.le_of_lt hlt) ..),
      bind_apply (writeHeader_apply _ (by omega) (Nat.le_of_lt hrest) ..),
      bind_apply (write_apply _ hrest _)]
    exact relink_apply _ hpred _
  · rw [if_pos (Nat.lt_of_not_le hs), if_neg hs, bind_apply (relink_apply _ hpred _)]
    exact writeHeader_apply _ (by omega) (Nat.le_of_lt hlt) ..

/-- A search that finds nothing is all that a request does. -/
theorem tryAllocate_of_search_none (hs : h.search (requestSize size) = .ok none) :
    tryAllocate tag size h = (.ok none, h) := by
  have hsearch : ask (·.search (requestSize size)) h = (.ok none, h) := ask_eq_ok hs
  rw [tryAllocate, bind_apply hsearch]
  rfl

/-- The fit that a search finds is handed out. -/
theorem tryAllocate_of_search (hs : h.search (requestSize size) = .ok (some fit))
    (hw : h.Within fit) : tryAllocate tag size h =
      (.ok (some ⟨tag, fit.block, (h.awarded tag (requestSize size) fit).sizeOf fit.block⟩),
        h.awarded tag (requestSize size) fit) := by
  have hlow := hw.low
  have hlt := hw.inHeap.lt_size
  have hsearch : ask (·.search (requestSize size)) h = (.ok (some fit), h) := ask_eq_ok hs
  have hread : ask (·.sizeAt fit.block) (h.awarded tag (requestSize size) fit) =
      (.ok ((h.awarded tag (requestSize size) fit).sizeOf fit.block),
        h.awarded tag (requestSize size) fit) :=
    ask_eq_ok (sizeAt_eq_ok _ (by omega) (Nat.le_of_lt hlt))
  rw [tryAllocate, bind_apply hsearch]
  show (award tag (requestSize size) fit >>= fun _ => _) h = _
  rw [bind_apply (award_apply hw), bind_apply (setBit_apply _ hw.inHeap)]
  rw [bind_apply (change_apply _ _)]
  exact bind_apply hread

/-- On a heap in order the search finds the first fit. -/
theorem search_eq_ok (ho : h.Ordered blocks) (size : Nat) :
    h.search size = .ok (h.firstFit size none (h.freeOf blocks)) :=
  ho.links.search_eq_ok ho.nodup_freeOf ho.inHeap_of_mem_freeOf size

/-- **No free block is large enough.** Then a request changes nothing. -/
theorem tryAllocate_eq_none (ho : h.Ordered blocks)
    (hf : h.firstFit (requestSize size) none (h.freeOf blocks) = none) :
    tryAllocate tag size h = (.ok none, h) :=
  tryAllocate_of_search_none (by rw [search_eq_ok ho, hf])

/-- **The first fit is taken.** The heap afterwards is `Heap.awarded`. -/
theorem tryAllocate_eq_some (ho : h.Ordered blocks)
    (hfit : h.firstFit (requestSize size) none (h.freeOf blocks) = some fit)
    (hf : h.Fitting blocks (requestSize size) fit front back) :
    tryAllocate tag size h = (.ok (some (h.grantOf tag (requestSize size) fit)),
      h.awarded tag (requestSize size) fit) := by
  have hpos : 1 ≤ requestSize size := Nat.le_max_right ..
  rw [tryAllocate_of_search (by rw [search_eq_ok ho, hfit]) (hf.within ho),
    ho.sizeOf_awarded hf hpos]
  rfl

end HeapM

end ArenaHeap
