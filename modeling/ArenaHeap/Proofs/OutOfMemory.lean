import ArenaHeap.Proofs.RegularUse

namespace ArenaHeap

/-!
# Out of memory

The words that no survivor of a collection covers form gaps between the survivors. A collection
makes one free block of each gap, so a request can be refused only if all gaps are too short for
it: neither fragments that were not merged nor blocks that got lost can be the reason.

* `Heap.Gap` — a gap, said without free blocks.
* `Heap.Collected.gap_iff` — the free blocks after a collection are the gaps before it.
* `Heap.Reached.allocate_exact` — what a request comes to, in terms of gaps.
* `Heap.gap_packed` — a heap in which free words are of no use, as they lie in two gaps.
-/

variable {L : Layout}

namespace Heap

/-- A heap word that belongs to no survivor of a collection. -/
def Vacant (h : Heap L) (roots : Roots) (i : Nat) : Prop :=
  L.heapStart ≤ i ∧ i < L.heapEnd ∧ ∀ b, h.Survives roots b → ¬ h.Covers b i

/-- A maximal run of vacant words, from `start` up to `stop`. -/
structure Gap (h : Heap L) (roots : Roots) (start stop : Nat) : Prop where
  lt : start < stop
  vacant : ∀ i, start ≤ i → i < stop → h.Vacant roots i
  not_before : ¬ h.Vacant roots (start - 1)
  not_behind : ¬ h.Vacant roots stop

variable {h h' m : Heap L} {roots : Roots} {blocks mid after : List Nat} {tag : Tag} {size : Nat}

/-! ### Gaps are free blocks -/

namespace Collected

variable (hc : Collected h roots blocks m mid)

include hc

/-- The vacant words are those of the free blocks that the collection leaves. -/
theorem vacant_iff {i : Nat} : h.Vacant roots i ↔ ∃ f ∈ m.freeOf mid, m.Covers f i := by
  have ho := hc.ordered
  have hcovers : ∀ b, h.Survives roots b → (h.Covers b i ↔ m.Covers b i) := by
    intro b hs
    rw [Covers, Covers, (hc.views_eq hs).1]
  constructor
  · rintro ⟨hlow, hhigh, hnone⟩
    obtain ⟨f, hf, hfi⟩ := ho.tiles.exists_covers hlow hhigh
    refine ⟨f, mem_freeOf.2 ⟨hf, ?_⟩, hfi⟩
    -- A block that is not free is a survivor, and no survivor covers a vacant word.
    by_contra hset
    have hs := (hc.bit_iff f (ho.inHeap hf).hasBit).1 (by simpa using hset)
    exact hnone f hs ((hcovers f hs).2 hfi)
  · rintro ⟨f, hf, hfi⟩
    obtain ⟨hmem, hclear⟩ := mem_freeOf.1 hf
    have hbound := ho.bounds hmem
    refine ⟨?_, ?_, fun b hs hbi => ?_⟩
    · obtain ⟨hlow, _⟩ := hfi
      omega
    · obtain ⟨_, hhigh⟩ := hfi
      omega
    · obtain ⟨hbmem, hset⟩ := ho.allocated_iff.1 (hc.allocated_iff.2 hs)
      exact ho.not_covers_free hbmem hset ((hcovers b hs).1 hbi) hmem hclear hfi

/-- A free block, header and payload, is a gap. -/
theorem gap_of_free {f : Nat} (hf : f ∈ m.freeOf mid) :
    h.Gap roots (f - 1) (f + m.sizeOf f) := by
  have ho := hc.ordered
  have hmem := (mem_freeOf.1 hf).1
  have hbound := ho.bounds hmem
  refine ⟨by omega, fun i hlow hhigh => hc.vacant_iff.2 ⟨f, hf, by omega, hhigh⟩, ?_, ?_⟩
  · intro hv
    obtain ⟨e, he, hle, hlt⟩ := hc.vacant_iff.1 hv
    have hemem := (mem_freeOf.1 he).1
    have hebound := ho.bounds hemem
    have hlow := hv.1
    have hpos := L.heapStart_pos
    refine ho.not_touching he hf ?_
    rw [Header.words]
    rcases ho.tiles.disjoint hemem hmem (by omega) with hef | hfe <;> omega
  · intro hv
    obtain ⟨e, he, hle, hlt⟩ := hc.vacant_iff.1 hv
    have hemem := (mem_freeOf.1 he).1
    have hne : e ≠ f := by
      rintro rfl
      omega
    refine ho.not_touching hf he ?_
    rw [Header.words]
    rcases ho.tiles.disjoint hemem hmem hne with hef | hfe <;> omega

/-- **Gaps are free blocks.** After a collection there is one free block for each gap. -/
theorem gap_iff {start stop : Nat} :
    h.Gap roots start stop ↔
      ∃ f ∈ m.freeOf mid, f = start + 1 ∧ stop = f + m.sizeOf f := by
  constructor
  · intro hgap
    obtain ⟨f, hf, hle, hlt⟩ := hc.vacant_iff.1 (hgap.vacant start (Nat.le_refl _) hgap.lt)
    have hbound := hc.ordered.bounds (mem_freeOf.1 hf).1
    have hfree := hc.gap_of_free hf
    -- Two maximal runs with a word in common have their ends in common.
    have hstart : f = start + 1 := by
      by_contra hne
      exact hgap.not_before (hfree.vacant _ (by omega) (by omega))
    refine ⟨f, hf, hstart, ?_⟩
    rcases Nat.lt_trichotomy stop (f + m.sizeOf f) with hless | heq | hmore
    · exact absurd (hfree.vacant stop (by have := hgap.lt; omega) hless) hgap.not_behind
    · exact heq
    · exact absurd (hgap.vacant _ (by omega) hmore) hfree.not_behind
  · rintro ⟨f, hf, hstart, rfl⟩
    have hfree := hc.gap_of_free hf
    rw [hstart, Nat.add_sub_cancel] at hfree
    rw [hstart]
    exact hfree

/-- All gaps are too short for a request just if all free blocks are too small. -/
theorem exhausted_iff :
    Exhausted m mid size ↔
      ∀ start stop, h.Gap roots start stop → stop - start < max size 1 + 1 := by
  constructor
  · intro hfull start stop hgap
    obtain ⟨f, hf, hstart, rfl⟩ := hc.gap_iff.1 hgap
    obtain ⟨hmem, hclear⟩ := mem_freeOf.1 hf
    have hsmall : m.sizeOf f < max size 1 := hfull f hmem hclear
    omega
  · intro hshort f hmem hclear
    have hbound := hc.ordered.bounds hmem
    have hgap := hc.gap_of_free (mem_freeOf.2 ⟨hmem, hclear⟩)
    have hlt := hshort _ _ hgap
    show m.sizeOf f < max size 1
    omega

/-- The gaps, with the free words that they leave once each has a header. -/
theorem exists_gaps : ∃ gaps : List (Nat × Nat), gaps.Nodup ∧
    (∀ p, p ∈ gaps ↔ h.Gap roots p.1 p.2) ∧
    ((m.freeOf mid).map m.sizeOf).sum = (gaps.map fun p => p.2 - p.1 - 1).sum := by
  have hpos : ∀ f ∈ m.freeOf mid, 0 < f := by
    intro f hf
    have hbound := hc.ordered.bounds (mem_freeOf.1 hf).1
    omega
  refine ⟨(m.freeOf mid).map fun f => (f - 1, f + m.sizeOf f), ?_, fun p => ?_, ?_⟩
  · have hnodup : (m.freeOf mid).Nodup := hc.ordered.tiles.nodup.filter _
    refine hnodup.map_on fun e he f hf hef => ?_
    have hstart : e - 1 = f - 1 := congrArg Prod.fst hef
    have := hpos e he
    have := hpos f hf
    omega
  · rw [hc.gap_iff, List.mem_map]
    constructor
    · rintro ⟨f, hf, rfl⟩
      have := hpos f hf
      exact ⟨f, hf, by omega, rfl⟩
    · rintro ⟨f, hf, hstart, hstop⟩
      exact ⟨f, hf, Prod.ext (by rw [hstart]; rfl) hstop.symm⟩
  · rw [List.map_map]
    refine congrArg List.sum (List.map_congr_left fun f hf => ?_)
    have := hpos f hf
    show m.sizeOf f = f + m.sizeOf f - (f - 1) - 1
    omega

end Collected

/-! ### What a request comes to -/

/-- A heap `h'` is the heap `m` with one more refusal counted. -/
structure RefusedOnceMore (m h' : Heap L) : Prop where
  words_eq : h'.words = m.words
  heads_eq : h'.heads = m.heads
  failures_eq : h'.counters.failures = m.counters.failures + 1
  allocations_eq : h'.counters.allocations = m.counters.allocations
  collections_eq : h'.counters.collections = m.counters.collections
  marked_eq : h'.counters.marked = m.counters.marked
  reclaimed_eq : h'.counters.reclaimed = m.counters.reclaimed

theorem refusedOnceMore_countFailure (m : Heap L) : m.RefusedOnceMore m.countFailure :=
  ⟨rfl, rfl, rfl, rfl, rfl, rfl, rfl⟩

/-- A request for `size` words on a heap `h`, with account `a` and result `h'`, is refused only if
    no gap is long enough for it. -/
structure AllocatesExactly (h : Heap L) (size : Nat) (roots : Roots) (a : Allocation)
    (h' : Heap L) : Prop where
  /-- It is served, or memory is out. -/
  answered : (∃ g, a.outcome = .ok (.ok g)) ∨
    ∃ free, a.outcome = .ok (.error (.outOfMemory size free))
  outOfMemory_iff : (∃ requested free, a.outcome = .ok (.error (.outOfMemory requested free))) ↔
    ∀ start stop, h.Gap roots start stop → stop - start < max size 1 + 1
  /-- The refusal tells how many words would be free, and the heap is left collected, with one more
      refusal counted. -/
  refused : ∀ requested free, a.outcome = .ok (.error (.outOfMemory requested free)) →
    (∃ gaps : List (Nat × Nat), gaps.Nodup ∧ (∀ p, p ∈ gaps ↔ h.Gap roots p.1 p.2) ∧
      free = (gaps.map fun p => p.2 - p.1 - 1).sum) ∧
    (h.collect roots).2.RefusedOnceMore h'
  /-- After a collection a request gets the start of the lowest gap that is long enough. -/
  lowest : ∀ c g, a = ⟨some c, .ok (.ok g)⟩ → ∃ start stop, h.Gap roots start stop ∧
    max size 1 + 1 ≤ stop - start ∧ g.block = start + 1 ∧
    ∀ start' stop', h.Gap roots start' stop' → max size 1 + 1 ≤ stop' - start' → start ≤ start'

/-- A request that is served at once could have been served in a gap, too: the block that it gets
    was free, so it lies in one. -/
theorem Granted.not_exhausted {g : Grant} (hg : Granted h blocks tag size g h' after)
    (hc : Collected h roots blocks m mid) : ¬ Exhausted m mid size := by
  intro hfull
  have hnot : ¬ h.Survives roots g.block := by
    intro hs
    have hset := hs.1.allocated.2
    rw [hg.free_before] at hset
    cases hset
  obtain ⟨f, hf, hclear, hle, hend⟩ := hc.inside g.block hg.mem_before hnot
  have hsmall := hfull f hf hclear
  have hsize := hg.size_le
  have hbefore := hg.size_le_before
  omega

/-- The block that a request gets after a collection stands at the start of the lowest gap. -/
theorem Granted.lowest_gap {g : Grant} (hg : Granted m mid tag size g h' after)
    (hc : Collected h roots blocks m mid) :
    ∃ start stop, h.Gap roots start stop ∧ max size 1 + 1 ≤ stop - start ∧
      g.block = start + 1 ∧ ∀ start' stop', h.Gap roots start' stop' →
        max size 1 + 1 ≤ stop' - start' → start ≤ start' := by
  have hfree := mem_freeOf.2 ⟨hg.mem_before, hg.free_before⟩
  have hbound := hc.ordered.bounds hg.mem_before
  have hsize : max size 1 ≤ g.size := hg.size_le
  have hbefore := hg.size_le_before
  refine ⟨g.block - 1, g.block + m.sizeOf g.block, hc.gap_of_free hfree, by omega, by omega, ?_⟩
  intro start' stop' hgap hlong
  obtain ⟨f, hf, hstart, rfl⟩ := hc.gap_iff.1 hgap
  obtain ⟨hmem, hclear⟩ := mem_freeOf.1 hf
  have hfits : requestSize size ≤ m.sizeOf f := by
    show max size 1 ≤ m.sizeOf f
    omega
  have hle := hg.lowest f hmem hclear hfits
  omega

/-- **Out of memory exactly when no gap fits.** What a request in regular use comes to. -/
theorem Reached.allocate_exact (hr : h.Reached) (hroots : roots.Regular L)
    (htag : tag ≠ Tag.free) (size : Nat) :
    AllocatesExactly h size roots (h.allocate tag size roots).1
      (h.allocate tag size roots).2 := by
  obtain ⟨blocks, ho⟩ := hr.ordered
  rcases ho.allocate_cases hroots htag size with ⟨g, h', after, hrun, hgranted⟩ |
    ⟨traces, r, m, mid, hcollect, hc, _, ⟨hrun, hfull⟩ | ⟨g, h', after, hrun, hgranted⟩⟩
  · -- Served at once: the collection that did not run would have left a gap.
    obtain ⟨_, _, m, mid, _, _, hc, _⟩ := ho.collect hroots
    rw [hrun]
    refine ⟨.inl ⟨g, rfl⟩, ⟨?_, fun hshort => ?_⟩, ?_, ?_⟩
    · rintro ⟨_, _, heq⟩
      cases heq
    · exact absurd (hc.exhausted_iff.2 hshort) (hgranted.not_exhausted hc)
    · rintro _ _ heq
      cases heq
    · rintro _ _ heq
      cases heq
  · -- Refused after the collection.
    rw [hrun]
    refine ⟨.inr ⟨_, rfl⟩, ⟨fun _ => hc.exhausted_iff.1 hfull, fun _ => ⟨_, _, rfl⟩⟩, ?_, ?_⟩
    · rintro requested free heq
      cases heq
      rw [hcollect]
      exact ⟨hc.exists_gaps, refusedOnceMore_countFailure m⟩
    · rintro _ _ heq
      cases heq
  · -- Served after the collection.
    rw [hrun]
    refine ⟨.inl ⟨g, rfl⟩, ⟨?_, fun hshort => ?_⟩, ?_, ?_⟩
    · rintro ⟨_, _, heq⟩
      cases heq
    · have hfull := hc.exhausted_iff.2 hshort
      have hsmall := hfull g.block hgranted.mem_before hgranted.free_before
      have hsize := hgranted.size_le
      have hbefore := hgranted.size_le_before
      omega
    · rintro _ _ heq
      cases heq
    · rintro c g' heq
      cases heq
      exact hgranted.lowest_gap hc

/-! ### A heap in fragments -/

/-- Four blocks fill the heap; the first one refers to the third one. -/
def packed : Heap Layout.small :=
  (Step.store 3 0 (VAddr.ofIndex 9)).apply ((Step.tryAllocate 7 4).apply
    ((Step.tryAllocate 7 2).apply ((Step.tryAllocate 7 2).apply
      ((Step.tryAllocate 7 2).apply small))))

/-- One root is set, and it names the first block. -/
def firstRoot : Roots := ⟨.ofIndex 3, .base, .base⟩

theorem reached_packed : packed.Reached := by
  have hone := reached_small.step (s := .tryAllocate 7 2) trivial
  have htwo := hone.step (s := .tryAllocate 7 2) trivial
  have hthree := htwo.step (s := .tryAllocate 7 2) trivial
  have hfour := hthree.step (s := .tryAllocate 7 4) trivial
  refine hfour.step (s := .store 3 0 (VAddr.ofIndex 9)) ?_
  show Heap.Allocated _ 3
  decide +kernel

theorem reachable_packed {b : Nat} (hb : packed.Reachable firstRoot.candidates b) :
    b = 3 ∨ b = 9 := by
  have hroot : ∀ b < 16, VAddr.ofIndex b ∈ firstRoot.candidates → b = 3 := by decide +kernel
  have hthree : ∀ b < 16, 2 ≤ b → VAddr.ofIndex b ∈ packed.payloadOf 3 → b = 9 := by
    decide +kernel
  have hnine : ∀ b < 16, 2 ≤ b → VAddr.ofIndex b ∉ packed.payloadOf 9 := by decide +kernel
  induction hb with
  | candidate hb hv => exact .inl (hroot _ hb.1.2 hv)
  | word _ hb hv ih =>
    rcases ih with rfl | rfl
    · exact .inr (hthree _ hb.1.2 hb.1.1 hv)
    · exact absurd hv (hnine _ hb.1.2 hb.1.1)

theorem survives_packed {b : Nat} : packed.Survives firstRoot b ↔ b = 3 ∨ b = 9 := by
  have hthree : packed.Reachable firstRoot.candidates 3 :=
    reachable_iff_slot.2 ⟨by decide +kernel, .inl ⟨.localBase, .ofIndex 3, rfl, by decide +kernel⟩⟩
  have hnine : packed.Reachable firstRoot.candidates 9 :=
    .word hthree (by decide +kernel) (by decide +kernel)
  constructor
  · exact fun hs => reachable_packed hs.1
  · rintro (rfl | rfl)
    · exact ⟨hthree, by decide +kernel⟩
    · exact ⟨hnine, by decide +kernel⟩

/-- The survivors have three words each, header and payload. -/
theorem vacant_packed {i : Nat} :
    packed.Vacant firstRoot i ↔ 5 ≤ i ∧ i < 8 ∨ 11 ≤ i ∧ i < 16 := by
  have hthree : packed.Covers 3 i ↔ 2 ≤ i ∧ i < 5 := by
    rw [Covers, show packed.sizeOf 3 = 2 by decide +kernel]
    omega
  have hnine : packed.Covers 9 i ↔ 8 ≤ i ∧ i < 11 := by
    rw [Covers, show packed.sizeOf 9 = 2 by decide +kernel]
    omega
  have hstart : Layout.small.heapStart = 2 := rfl
  have hend : Layout.small.heapEnd = 16 := rfl
  simp only [Vacant, survives_packed, forall_eq_or_imp, forall_eq, hthree, hnine, hstart, hend]
  omega

/-- So there is one gap between them and one behind. -/
theorem gap_packed {start stop : Nat} :
    packed.Gap firstRoot start stop ↔ start = 5 ∧ stop = 8 ∨ start = 11 ∧ stop = 16 := by
  constructor
  · rintro ⟨hlt, hvacant, hbefore, hbehind⟩
    have hlow := hvacant start (Nat.le_refl _) hlt
    have hhigh := hvacant (stop - 1) (by omega) (by omega)
    -- A gap from the first run into the second one would have to pass a survivor.
    have hacross : ¬ (start ≤ 8 ∧ 8 < stop) := by
      rintro ⟨hle, hlt⟩
      have height := vacant_packed.1 (hvacant 8 hle hlt)
      omega
    rw [vacant_packed] at hlow hhigh hbefore hbehind
    omega
  · have hrun : ∀ {start stop}, (start = 5 ∧ stop = 8 ∨ start = 11 ∧ stop = 16) →
        ∀ i, start ≤ i → i < stop → packed.Vacant firstRoot i := by
      intro start stop hends i hle hlt
      rw [vacant_packed]
      omega
    intro hends
    refine ⟨by omega, hrun hends, ?_, ?_⟩ <;>
      · rw [vacant_packed]
        omega

section Packed

variable {a : Allocation} {h' : Heap Layout.small}

/-- Neither gap has room for five words and a header, though six words are free. -/
theorem AllocatesExactly.refused_packed (hx : packed.AllocatesExactly 5 firstRoot a h') :
    a.outcome = .ok (.error (.outOfMemory 5 6)) ∧
      (packed.collect firstRoot).2.RefusedOnceMore h' := by
  obtain ⟨requested, free, hout⟩ := hx.outOfMemory_iff.2 fun start stop hgap => by
    have hends := gap_packed.1 hgap
    omega
  obtain ⟨⟨gaps, hnodup, hmem, hfree⟩, honce⟩ := hx.refused requested free hout
  have hperm : gaps.Perm [(5, 8), (11, 16)] := by
    refine (List.perm_ext_iff_of_nodup hnodup (by decide)).2 fun p => ?_
    rw [hmem, gap_packed]
    simp [Prod.ext_iff]
  have hsix : free = 6 := hfree.trans (hperm.map _).sum_eq
  obtain ⟨g, hg⟩ | ⟨free', hagain⟩ := hx.answered
  · cases hout.symm.trans hg
  · cases hout.symm.trans hagain
    exact ⟨by rw [hout, hsix], honce⟩

/-- Four words and a header just fill the second gap. -/
theorem AllocatesExactly.served_packed (hx : packed.AllocatesExactly 4 firstRoot a h') :
    (∃ g, a.outcome = .ok (.ok g)) ∧ ∀ c g, a = ⟨some c, .ok (.ok g)⟩ → g.block = 12 := by
  refine ⟨hx.answered.resolve_right ?_, fun c g haccount => ?_⟩
  · rintro ⟨free, hout⟩
    have hshort := hx.outOfMemory_iff.1 ⟨_, _, hout⟩ 11 16 (gap_packed.2 (.inr ⟨rfl, rfl⟩))
    omega
  · obtain ⟨start, stop, hgap, hlong, hblock, _⟩ := hx.lowest c g haccount
    have hends := gap_packed.1 hgap
    omega

end Packed

/-- After a collection six words are free in two gaps: a request for five words is refused, and one
    for four words is served in the second gap. -/
theorem allocate_exact_small :
    packed.Reached ∧ firstRoot.Regular Layout.small ∧ (7 : Tag) ≠ Tag.free ∧
      (packed.allocate 7 5 firstRoot).1.outcome = .ok (.error (.outOfMemory 5 6)) ∧
      (packed.collect firstRoot).2.RefusedOnceMore (packed.allocate 7 5 firstRoot).2 ∧
      ∃ c g, (packed.allocate 7 4 firstRoot).1 = ⟨some c, .ok (.ok g)⟩ ∧ g.block = 12 := by
  have hroots : firstRoot.Regular Layout.small := by decide +kernel
  have htag : (7 : Tag) ≠ Tag.free := by decide
  obtain ⟨hrefused, honce⟩ := (reached_packed.allocate_exact hroots htag 5).refused_packed
  obtain ⟨⟨g, hg⟩, hblock⟩ := (reached_packed.allocate_exact hroots htag 4).served_packed
  -- No block is free, so the heap collects before it serves the second request.
  have hnone : HeapM.tryAllocate 7 4 packed = (.ok none, packed) := rfl
  obtain ⟨blocks, ho⟩ := reached_packed.ordered
  obtain ⟨traces, r, m, _, _, hcollect, _⟩ := ho.collect hroots
  have hrun := allocate_of_collected htag hnone hcollect
  have haccount : (packed.allocate 7 4 firstRoot).1 = ⟨some ⟨traces, .ok r⟩, .ok (.ok g)⟩ := by
    rw [hrun] at hg ⊢
    exact congrArg (Allocation.mk _) hg
  exact ⟨reached_packed, hroots, htag, hrefused, honce, _, g, haccount, hblock _ g haccount⟩

end Heap

end ArenaHeap
