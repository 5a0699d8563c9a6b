import ArenaHeap.Proofs.Equality
import ArenaHeap.Proofs.RegularUse

namespace ArenaHeap

/-!
# Heaps with marking interrupted

A root outside the heap interrupts marking. The bits cleared by then stay clear, and no sweep sets
them again until a collection completes. `Heap.Paused` is such a heap: a heap in order, but for the
bits of the blocks visited. Requests and stores work on it as on the heap in order, and so does the
next marking, which takes the blocks visited for done.

* `Heap.markAll_cases` — marking on top of some blocks visited: it completes or is interrupted.
* `Heap.Ordered.tryAllocate_clearBits` — a request does not read the bits of allocated blocks.
* `Heap.Onward` — what a step can do, with `Heap.Resumed` for the collection in it.
-/

variable {L : Layout}

namespace Heap

/-- A heap `h` as interrupted marking leaves a heap `g` in order: some allocated blocks have their
    bit cleared. -/
structure Paused (h g : Heap L) (blocks visited : List Nat) : Prop where
  ordered : g.Ordered blocks
  nodup : visited.Nodup
  allocated : ∀ b ∈ visited, g.Allocated b
  eq : h = g.clearBits visited

variable {h h' g m : Heap L} {blocks mid visited : List Nat} {b size : Nat} {tag : Tag} {fit : Fit}
  {s : Step} {roots : Roots}

theorem Ordered.paused (ho : h.Ordered blocks) : h.Paused h blocks [] :=
  ⟨ho, List.nodup_nil, fun _ hb => absurd hb List.not_mem_nil, rfl⟩

namespace Paused

theorem inHeap (hp : h.Paused g blocks visited) : ∀ b ∈ visited, L.InHeap b :=
  fun b hb => (hp.allocated b hb).1

/-- Only bits differ. -/
theorem word_eq (hp : h.Paused g blocks visited) {j : Nat}
    (hj : j < L.reserved ∨ L.heapStart ≤ j) : h.word j = g.word j := by
  rw [hp.eq, word_clearBits hp.inHeap hj]

theorem bit_eq (hp : h.Paused g blocks visited) {i : Nat} (hi : L.heapStart ≤ i) :
    h.bit i = (g.bit i && !decide (i ∈ visited)) := by
  rw [hp.eq, bit_clearBits hp.inHeap hi]

/-- A block has the size, the tag and the payload that it has in the heap in order. -/
theorem views_eq (hp : h.Paused g blocks visited) (hb : L.heapStart < b) :
    h.sizeOf b = g.sizeOf b ∧ h.tagOf b = g.tagOf b ∧ h.payloadOf b = g.payloadOf b := by
  have hheader : h.word (b - 1) = g.word (b - 1) := hp.word_eq (.inr (by omega))
  refine ⟨sizeOf_congr hheader, tagOf_congr hheader, ?_⟩
  exact payloadOf_congr (sizeOf_congr hheader) fun k _ => hp.word_eq (.inr (by omega))

end Paused

/-! ### Requests and stores -/

/-- An award reads no bit, and the one that it sets belongs to none of the blocks visited. -/
theorem awarded_clearBits (hin : ∀ b ∈ visited, L.InHeap b) (hw : h.Within fit)
    (hnew : fit.block ∉ visited) (tag : Tag) (size : Nat) :
    (h.clearBits visited).awarded tag size fit = (h.awarded tag size fit).clearBits visited := by
  obtain ⟨hlow, hmin, hhigh, hpred⟩ := hw
  have hsize : (h.clearBits visited).sizeOf fit.block = h.sizeOf fit.block :=
    sizeOf_clearBits hin hlow
  have hlink : (h.clearBits visited).linkOf fit.block = h.linkOf fit.block :=
    word_clearBits hin (.inr (Nat.le_of_lt hlow))
  have hsplits : (h.clearBits visited).Splits size fit ↔ h.Splits size fit := by
    rw [Splits, Splits, hsize]
  have hput : ∀ i w, L.heapStart ≤ i → ∀ f : Heap L,
      (f.clearBits visited).put i w = (f.put i w).clearBits visited :=
    fun i w hi f => put_clearBits hin (.inr hi) w f
  have hset : ∀ f : Heap L, ((f.clearBits visited).setBit fit.block).countAllocation =
      ((f.setBit fit.block).countAllocation).clearBits visited := by
    intro f
    rw [setBit_clearBits hin ⟨by omega, by omega⟩ hnew]
    exact clearBits_comm (fun _ _ _ => rfl) _
  rw [awarded, awarded]
  by_cases hs : h.Splits size fit
  · obtain ⟨hrest, hroom⟩ := hs.rest
    rw [if_pos hs, if_pos (hsplits.2 hs), awardedPart, awardedPart, cut, cut, hsize, hlink,
      putHeader, putHeader, putHeader, putHeader, hput _ _ (by rw [Header.words]; omega),
      hput _ _ (by rw [Header.words]; omega), hput _ _ (by omega),
      relinked_clearBits hin hpred, hset]
  · rw [if_neg hs, if_neg fun hs' => hs (hsplits.1 hs'), awardedWhole, awardedWhole, hsize, hlink,
      putHeader, putHeader, relinked_clearBits hin hpred, hput _ _ (by rw [Header.words]; omega),
      hset]

/-- **Requests.** A request does not read the bits of allocated blocks, so it comes to the same if
    they are cleared. -/
theorem Ordered.tryAllocate_clearBits (ho : h.Ordered blocks)
    (hvis : ∀ b ∈ visited, h.Allocated b) (tag : Tag) (size : Nat) :
    HeapM.tryAllocate tag size (h.clearBits visited) =
      ((HeapM.tryAllocate tag size h).1, (HeapM.tryAllocate tag size h).2.clearBits visited) := by
  have hin : ∀ b ∈ visited, L.InHeap b := fun b hb => (hvis b hb).1
  have hlow : ∀ f ∈ h.freeOf blocks, L.heapStart < f := fun f hf =>
    (ho.bounds (mem_freeOf.1 hf).1).1
  -- Links and sizes of the free blocks are as they were, so the search finds the same block.
  have hlinks : (h.clearBits visited).Links ((h.clearBits visited).heads.get commonList)
      (h.freeOf blocks) VAddr.null := by
    rw [heads_clearBits]
    exact ho.links.congr fun f hf => word_clearBits hin (.inr (Nat.le_of_lt (hlow f hf)))
  have hsearch : (h.clearBits visited).search (requestSize size) =
      .ok (h.firstFit (requestSize size) none (h.freeOf blocks)) := by
    rw [← firstFit_congr fun f hf => sizeOf_clearBits hin (hlow f hf)]
    exact hlinks.search_eq_ok ho.nodup_freeOf ho.inHeap_of_mem_freeOf _
  cases hfit : h.firstFit (requestSize size) none (h.freeOf blocks) with
  | none =>
    rw [HeapM.tryAllocate_eq_none ho hfit,
      HeapM.tryAllocate_of_search_none (by rw [hsearch, hfit])]
  | some fit =>
    obtain ⟨front, back, hf⟩ := Fitting.of_firstFit hfit
    have hw := hf.within ho
    have hw' : (h.clearBits visited).Within fit :=
      ⟨hw.low, by rw [sizeOf_clearBits hin hw.low]; exact hw.minSize_le,
        by rw [sizeOf_clearBits hin hw.low]; exact hw.high, hw.pred⟩
    have hnew : fit.block ∉ visited := by
      intro hmem
      have hset := (hvis _ hmem).2
      rw [hf.mem_free.2] at hset
      cases hset
    rw [HeapM.tryAllocate_of_search (by rw [hsearch, hfit]) hw',
      HeapM.tryAllocate_of_search (by rw [HeapM.search_eq_ok ho, hfit]) hw,
      awarded_clearBits hin hw hnew, sizeOf_clearBits hin hw.low]

namespace Paused

/-- A request is refused or served as by the heap in order. -/
theorem tryAllocate_cases (hp : h.Paused g blocks visited) (tag : Tag) (size : Nat) :
    HeapM.tryAllocate tag size h = (.ok none, h) ∨
    ∃ gr g' after, HeapM.tryAllocate tag size h = (.ok (some gr), g'.clearBits visited) ∧
      Granted g blocks tag size gr g' after := by
  have hrun := hp.ordered.tryAllocate_clearBits hp.allocated tag size
  rw [← hp.eq] at hrun
  rcases hp.ordered.tryAllocate_cases tag size with ⟨hnone, _⟩ | ⟨gr, g', after, hsome, hgranted⟩
  · rw [hnone] at hrun
    exact .inl (hrun.trans (by rw [hp.eq]))
  · rw [hsome] at hrun
    exact .inr ⟨gr, g', after, hrun, hgranted⟩

/-- A store writes as in the heap in order. -/
theorem store_kept (hp : h.Paused g blocks visited) (hb : g.Allocated b) (k : Nat) (w : Word) :
    ∃ g', Kept g (.store b k w) g' ∧ (Step.store b k w).apply h = g'.clearBits visited := by
  have hbound := hp.ordered.bounds (hp.ordered.allocated_iff.1 hb).1
  have hsize := (hp.views_eq hbound.1).1
  rw [Step.apply, HeapM.store_apply hbound.1 hb.1 (by rw [hsize]; exact hbound.2.2), hsize]
  by_cases hk : k < g.sizeOf b
  · rw [if_pos hk]
    refine ⟨g.put (b + k) w, .store w hb hk, ?_⟩
    rw [hp.eq]
    exact put_clearBits hp.inHeap (.inr (by omega)) w g
  · rw [if_neg hk]
    refine ⟨g, .same ?_ rfl rfl, hp.eq⟩
    rintro c l v hstep
    cases hstep
    exact Nat.le_of_not_lt hk

theorem storeReserved_kept (hp : h.Paused g blocks visited) (k : Nat) (w : Word) :
    ∃ g', Kept g (.storeReserved k w) g' ∧
      (Step.storeReserved k w).apply h = g'.clearBits visited := by
  rw [Step.apply, HeapM.storeReserved_apply]
  by_cases hk : k < L.reserved
  · rw [if_pos hk]
    refine ⟨g.put k w, .storeReserved w hk, ?_⟩
    rw [hp.eq]
    exact put_clearBits hp.inHeap (.inl hk) w g
  · rw [if_neg hk]
    exact ⟨g, .same (by simp) rfl rfl, hp.eq⟩

end Paused

/-! ### Marking -/

/-- **Marking on.** On top of the blocks visited before, marking visits what is to be visited from
    the candidates; one of them outside the heap interrupts it, and then it has dealt with those
    in front of that one. -/
theorem markAll_cases (hc : h.Contained) (hnodup : visited.Nodup)
    (hvis : ∀ b ∈ visited, h.Allocated b) (candidates : List VAddr) :
    (∃ more traces, h.Visits visited candidates more ∧ (h.clearBits visited).markAll candidates =
        (traces, .ok (), h.clearBits (more ++ visited))) ∨
    ∃ front more traces fault, h.Visits visited front more ∧
      (h.clearBits visited).markAll candidates =
        (traces, .error fault, h.clearBits (more ++ visited)) := by
  by_cases hcand : ∀ v ∈ candidates, L.Spans v ∨ ¬ v.Aligned
  · obtain ⟨more, traces, hm, hrun, _⟩ := markAll_visits hc hcand hnodup hvis
    exact .inl ⟨more, traces, hm, hrun⟩
  · obtain ⟨front, v, back, hsplit, hfront, hal, hout⟩ := exists_first_outside hcand
    obtain ⟨more, traces, hm, hrun⟩ := markAll_outside hc hfront hal hout back hnodup hvis
    exact .inr ⟨front, more, traces, _, hm, hsplit ▸ hrun⟩

/-- Once marking is done, the sweep keeps just the blocks that were visited by then. -/
theorem Paused.collect_of_markAll (hp : h.Paused g blocks visited) {more : List Nat}
    {traces : List RootTrace} (hm : g.Visits visited roots.candidates more)
    (hrun : (g.clearBits visited).markAll roots.candidates =
      (traces, .ok (), g.clearBits (more ++ visited))) :
    ∃ r m mid, h.collect roots = (⟨traces, .ok r⟩, m) ∧
      Reduced g (fun c => c ∈ more ++ visited ∧ g.tagOf c ≠ Tag.free) blocks m mid := by
  have hall := hm.allocated hp.allocated
  have htiles : (g.clearBits (more ++ visited)).TilesTo L.heapStart blocks L.heapEnd :=
    hp.ordered.tiles.congr fun c hc =>
      sizeOf_clearBits (fun b hb => (hall b hb).1) (hp.ordered.bounds hc).1
  obtain ⟨m, mid, r, hsweep, hr⟩ := HeapM.sweep_apply htiles
  refine ⟨r, m.countCollection (Collection.marked ⟨traces, .ok r⟩) r.reclaimed, mid, ?_,
    (hp.ordered.reduced hall hr).of_words rfl rfl⟩
  rw [Heap.collect, hp.eq, hrun]
  simp only [hsweep]

/-- **Collecting on.** A collection is interrupted, and then more blocks may be visited than
    before; or it completes and keeps just the blocks that were visited by then. -/
theorem Paused.collect_cases (hp : h.Paused g blocks visited) (roots : Roots) :
    (∃ traces fault front more, h.collect roots =
        (⟨traces, .error fault⟩, g.clearBits (more ++ visited)) ∧
      g.Visits visited front more) ∨
    ∃ traces r m mid more, h.collect roots = (⟨traces, .ok r⟩, m) ∧
      g.Visits visited roots.candidates more ∧
      Reduced g (fun c => c ∈ more ++ visited ∧ g.tagOf c ≠ Tag.free) blocks m mid := by
  rcases markAll_cases hp.ordered.contained hp.nodup hp.allocated roots.candidates with
    ⟨more, traces, hm, hrun⟩ | ⟨front, more, traces, fault, hm, hrun⟩
  · obtain ⟨r, m, mid, hcollect, hreduced⟩ := hp.collect_of_markAll hm hrun
    exact .inr ⟨traces, r, m, mid, more, hcollect, hm, hreduced⟩
  · refine .inl ⟨traces, fault, front, more, ?_, hm⟩
    rw [Heap.collect, hp.eq, hrun]

/-- From roots that it can read, a collection completes, also after interruptions. -/
theorem Paused.collect_completes (hp : h.Paused g blocks visited) (hroots : roots.Regular L) :
    (Step.collect roots).collected h = some roots := by
  obtain ⟨more, traces, hm, hrun, _⟩ :=
    markAll_visits hp.ordered.contained hroots hp.nodup hp.allocated
  obtain ⟨r, m, mid, hcollect, _⟩ := hp.collect_of_markAll hm hrun
  rw [Step.collected, hcollect]

/-! ### One step -/

/-- A heap `h`, paused on top of `g`, after the collection that a step completes, if any: `m` is
    the heap in order afterwards, with some blocks visited. -/
inductive Resumed (h g : Heap L) (blocks visited : List Nat) :
    (roots : Option Roots) → (m : Heap L) → (mid seen : List Nat) → Prop
  | unfinished {more : List Nat} : (more ++ visited).Nodup → (∀ b ∈ more, g.Allocated b) →
      Resumed h g blocks visited none g blocks (more ++ visited)
  | completed {roots : Roots} {mid more : List Nat} : g.Visits visited roots.candidates more →
      Reduced g (fun c => c ∈ more ++ visited ∧ g.tagOf c ≠ Tag.free) blocks (h.collect roots).2
        mid → Resumed h g blocks visited (some roots) (h.collect roots).2 mid []

theorem Paused.unchanged (hp : h.Paused g blocks visited) :
    Resumed h g blocks visited none g blocks visited :=
  .unfinished (List.nil_append visited ▸ hp.nodup) fun _ hb => absurd hb List.not_mem_nil

/-- The heap in order that a step goes on with. -/
theorem Resumed.paused {roots : Option Roots} {seen : List Nat}
    (hr : Resumed h g blocks visited roots m mid seen) (hp : h.Paused g blocks visited) :
    (m.clearBits seen).Paused m mid seen := by
  cases hr with
  | unfinished hnodup hmore =>
    refine ⟨hp.ordered, hnodup, fun b hb => ?_, rfl⟩
    exact (List.mem_append.1 hb).elim (hmore b) (hp.allocated b)
  | completed _ hreduced => exact hreduced.ordered.paused

/-- The second attempt at a request on a heap in order. -/
theorem Ordered.retry_cases (ho : m.Ordered mid) (tag : Tag) (size : Nat) :
    (∃ e, m.retry tag size = (.ok (.error e), m.countFailure)) ∨
    ∃ gr h' after, m.retry tag size = (.ok (.ok gr), h') ∧ Granted m mid tag size gr h' after := by
  rcases ho.tryAllocate_cases tag size with ⟨hrun, _⟩ | ⟨gr, h', after, hrun, hgranted⟩
  · -- Counting the failure changes no word, so the blocks can be walked.
    have hcount : m.countFailure.Ordered mid := ho.of_words rfl rfl
    obtain ⟨u, husage⟩ := hcount.exists_usage
    refine .inl ⟨.outOfMemory size u.freeWords, ?_⟩
    rw [retry, hrun]
    simp only [husage]
  · exact .inr ⟨gr, h', after, by rw [retry, hrun], hgranted⟩

/-- What a step makes of a heap `h` paused on top of `g`: the collection that it completes, if any,
    comes first, and then a block is handed out or a word is stored at most. -/
inductive Onward (h g : Heap L) (blocks visited : List Nat) (s : Step) (h' : Heap L) : Prop
  | granted {m g' : Heap L} {mid seen after : List Nat} {tag : Tag} {size : Nat} {gr : Grant} :
      Resumed h g blocks visited (s.collected h) m mid seen → s.granted h = some gr →
      Granted m mid tag size gr g' after → h' = g'.clearBits seen →
      Onward h g blocks visited s h'
  | kept {m g' : Heap L} {mid seen : List Nat} :
      Resumed h g blocks visited (s.collected h) m mid seen → s.granted h = none →
      Kept m s g' → h' = g'.clearBits seen → Onward h g blocks visited s h'

namespace Paused

variable (hp : h.Paused g blocks visited)

include hp

theorem onward_tryAllocate (tag : Tag) (size : Nat) :
    Onward h g blocks visited (.tryAllocate tag size) ((Step.tryAllocate tag size).apply h) := by
  rcases hp.tryAllocate_cases tag size with hrun | ⟨gr, g', after, hrun, hgranted⟩
  · refine .kept hp.unchanged ?_ (.same (by simp) rfl rfl) ?_
    · rw [Step.granted, hrun]
    · rw [Step.apply, hrun, hp.eq]
  · refine .granted hp.unchanged ?_ hgranted ?_
    · rw [Step.granted, hrun]
    · rw [Step.apply, hrun]

theorem onward_collect (roots : Roots) :
    Onward h g blocks visited (.collect roots) ((Step.collect roots).apply h) := by
  rcases hp.collect_cases roots with ⟨traces, fault, front, more, hrun, hm⟩ |
    ⟨traces, r, m, mid, more, hrun, hm, hreduced⟩
  · have hnone : (Step.collect roots).collected h = none := by rw [Step.collected, hrun]
    have hresumed : Resumed h g blocks visited ((Step.collect roots).collected h) g blocks
        (more ++ visited) := by
      rw [hnone]
      exact .unfinished hm.nodup fun b hb => (hm.reachable b hb).allocated
    exact .kept hresumed rfl (.same (by simp) rfl rfl) (by rw [Step.apply, hrun])
  · have hsome : (Step.collect roots).collected h = some roots := by rw [Step.collected, hrun]
    have hresumed : Resumed h g blocks visited ((Step.collect roots).collected h)
        (h.collect roots).2 mid [] := by
      rw [hsome]
      exact .completed hm (by rw [hrun]; exact hreduced)
    exact .kept hresumed rfl (.same (by simp) rfl rfl) rfl

/-- A request that is not served at once comes to what its collection comes to, and then, if that
    completes, to a second attempt. -/
theorem onward_allocate (tag : Tag) (size : Nat) (roots : Roots) :
    Onward h g blocks visited (.allocate tag size roots)
      ((Step.allocate tag size roots).apply h) := by
  by_cases htag : tag = Tag.free
  · have hallocate := h.allocate_of_reserved htag size roots
    have hresumed : Resumed h g blocks visited
        ((Step.allocate tag size roots).collected h) g blocks visited := by
      rw [Step.collected, hallocate]
      exact hp.unchanged
    refine .kept hresumed ?_ (.same (by simp) rfl rfl) ?_
    · rw [Step.granted, hallocate]
    · rw [Step.apply, hallocate, hp.eq]
  rcases hp.tryAllocate_cases tag size with hrun | ⟨gr, g', after, hrun, hgranted⟩
  · rcases hp.collect_cases roots with ⟨traces, fault, front, more, hcollect, hm⟩ |
      ⟨traces, r, m, mid, more, hcollect, hm, hreduced⟩
    · -- Interrupted.
      have hallocate : h.allocate tag size roots = (⟨some ⟨traces, .error fault⟩, .error fault⟩,
          g.clearBits (more ++ visited)) := by
        rw [Heap.allocate, if_neg htag, hrun]
        simp only [hcollect]
      have hresumed : Resumed h g blocks visited
          ((Step.allocate tag size roots).collected h) g blocks (more ++ visited) := by
        rw [Step.collected, hallocate]
        exact .unfinished hm.nodup fun b hb => (hm.reachable b hb).allocated
      refine .kept hresumed ?_ (.same (by simp) rfl rfl) ?_
      · rw [Step.granted, hallocate]
      · rw [Step.apply, hallocate]
    · have hallocate : h.allocate tag size roots =
          (⟨some ⟨traces, .ok r⟩, (m.retry tag size).1⟩, (m.retry tag size).2) := by
        rw [Heap.allocate, if_neg htag, hrun]
        simp only [hcollect]
      have hresumed : Resumed h g blocks visited
          ((Step.allocate tag size roots).collected h) m mid [] := by
        have hafter : (h.collect roots).2 = m := by rw [hcollect]
        rw [Step.collected, hallocate, ← hafter]
        exact .completed hm (hafter ▸ hreduced)
      rcases hreduced.ordered.retry_cases tag size with ⟨e, hretry⟩ | ⟨gr, h', after, hretry, hg⟩
      · have hkept : Kept m (.allocate tag size roots) m.countFailure := .same (by simp) rfl rfl
        refine .kept hresumed ?_ hkept ?_
        · rw [Step.granted, hallocate, hretry]
        · rw [Step.apply, hallocate, hretry]
          rfl
      · refine .granted hresumed ?_ hg ?_
        · rw [Step.granted, hallocate, hretry]
        · rw [Step.apply, hallocate, hretry]
          rfl
  · have hallocate : h.allocate tag size roots = (⟨none, .ok (.ok gr)⟩, g'.clearBits visited) := by
      rw [Heap.allocate, if_neg htag, hrun]
    have hresumed : Resumed h g blocks visited
        ((Step.allocate tag size roots).collected h) g blocks visited := by
      rw [Step.collected, hallocate]
      exact hp.unchanged
    refine .granted hresumed ?_ hgranted ?_
    · rw [Step.granted, hallocate]
    · rw [Step.apply, hallocate]

end Paused

end Heap

end ArenaHeap
