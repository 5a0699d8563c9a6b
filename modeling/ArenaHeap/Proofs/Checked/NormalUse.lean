import ArenaHeap.Proofs.Checked.Agreement

namespace ArenaHeap

/-!
# Numbers in normal use

From any arena on, whatever regular use does with a heap, every number stays within its bounds: the
checked operations run through, and do what the operations do. Only the counters have no bound of
their own. They grow with the steps taken, by no more than the words of the heap at a time.

* `Step.Answer.Completed`, `Heap.Ordered.completed` — no step ends in a fault.
* `Heap.Presentable`, `Heap.Ordered.presentable` — what can be looked at on a heap.
* `Counters.Within`, `Heap.Ordered.within_step` — how fast the counters grow.
* `Checked.normal_use` — the law.
-/

variable {L : Layout}

/-- An answer that tells of no fault, neither in the step nor in a collection that it ran. -/
def Step.Answer.Completed : Step.Answer → Prop
  | request outcome => outcome.isOk
  | allocation account => account.outcome.isOk ∧ ∀ c ∈ account.collection, c.outcome.isOk
  | collection account => account.outcome.isOk
  | store outcome => outcome.isOk

/-- What can be looked at on a heap is found without a fault or a failed check, and shows no null
    address. -/
structure Heap.Presentable (h : Heap L) : Prop where
  blocks : ∃ found, h.blocks = .ok found ∧ Checked.blocks h = .ok found ∧
    ∀ b ∈ found, b.vaddr ≠ VAddr.null ∧ b.vaddr.index = b.index
  usage : ∃ u, h.usage = .ok u ∧ Checked.usage h = .ok u
  freeList : ∀ n, n < listCount → ∃ list, h.freeList n = .ok list ∧ ∀ v ∈ list, v ≠ VAddr.null

/-- The counters after at most `steps` steps of a heap of `words` words. -/
structure Counters.Within (c : Counters) (steps words : Nat) : Prop where
  allocations : c.allocations ≤ steps
  collections : c.collections ≤ steps
  failures : c.failures ≤ steps
  marked : c.marked ≤ steps * words
  reclaimed : c.reclaimed ≤ steps * words

namespace Heap

variable {h : Heap L} {blocks : List Nat} {s : Step} {steps : List Step} {roots : Roots}

/-! ### Answers -/

theorem Ordered.completed_allocate (ho : h.Ordered blocks) (hroots : roots.Regular L) (tag : Tag)
    (size : Nat) : ((Step.allocate tag size roots).answer h).Completed := by
  show (h.allocate tag size roots).1.outcome.isOk ∧
    ∀ c ∈ (h.allocate tag size roots).1.collection, c.outcome.isOk
  by_cases htag : tag = Tag.free
  · rw [h.allocate_of_reserved htag]
    exact ⟨rfl, by simp⟩
  rcases ho.allocate_cases hroots htag size with ⟨g, h', after, hrun, _⟩ |
    ⟨traces, r, m, mid, _, _, _, ⟨hrun, _⟩ | ⟨g, h', after, hrun, _⟩⟩
  · rw [hrun]
    exact ⟨rfl, by simp⟩
  · rw [hrun]
    exact ⟨rfl, by rintro _ ⟨⟩; rfl⟩
  · rw [hrun]
    exact ⟨rfl, by rintro _ ⟨⟩; rfl⟩

/-- **No fault.** No step of regular use ends in a fault. -/
theorem Ordered.completed (ho : h.Ordered blocks) (hs : s.Regular h) : (s.answer h).Completed := by
  cases s with
  | tryAllocate tag size =>
    show (HeapM.tryAllocate tag size h).1.isOk
    rcases ho.counters_tryAllocate tag size with hrun | ⟨g, h', hrun, _⟩
    · rw [hrun]
      rfl
    · rw [hrun]
      rfl
  | allocate tag size roots => exact ho.completed_allocate hs tag size
  | collect roots =>
    obtain ⟨traces, r, m, mid, hrun, _⟩ := ho.counters_collect hs
    show (h.collect roots).1.outcome.isOk
    rw [hrun]
    rfl
  | store b k w =>
    show (HeapM.store (.ofIndex b) k w h).1.isOk
    rw [ho.store_apply hs]
    split <;> rfl
  | storeReserved k w =>
    show (HeapM.storeReserved k w h).1.isOk
    rw [HeapM.storeReserved_apply]
    split <;> rfl

/-! ### Looking at a heap -/

/-- The block walk, the usage and all lists of free blocks of a heap in order. -/
theorem Ordered.presentable (ho : h.Ordered blocks) : h.Presentable := by
  have hwalk := h.blocks_eq_ok (tiles_iff.2 ho.tiles)
  have hpos := L.heapStart_pos
  refine ⟨⟨_, hwalk, ?walk, ?addresses⟩, ?usage, ?lists⟩
  case walk =>
    rw [Checked.blocks_eq, hwalk]
    rfl
  case addresses =>
    intro b hb
    obtain ⟨i, hi, rfl⟩ := List.mem_map.1 (List.mem_toArray.1 hb)
    have hin := ho.inHeap hi
    exact ⟨VAddr.ofIndex_ne_null hin.lt (Nat.lt_of_lt_of_le hpos hin.1), VAddr.index_ofIndex hin.lt⟩
  case usage =>
    obtain ⟨u, hu⟩ := ho.exists_usage
    refine ⟨u, hu, ?_⟩
    rw [Checked.usage_eq ho, hu]
    rfl
  case lists =>
    intro n hn
    by_cases hcommon : n = commonList.val
    · subst hcommon
      refine ⟨_, ho.freeList, fun v hv => ?_⟩
      obtain ⟨b, hb, rfl⟩ := List.mem_map.1 (List.mem_toArray.1 hv)
      have hin := ho.inHeap_of_mem_freeOf b hb
      exact VAddr.ofIndex_ne_null hin.lt (Nat.lt_of_lt_of_le hpos hin.1)
    · have hne : (⟨n, hn⟩ : Fin listCount) ≠ commonList := fun hc => hcommon (congrArg Fin.val hc)
      exact ⟨#[], ho.freeList_of_ne hne, fun v hv => absurd hv (Array.not_mem_empty v)⟩

/-! ### Counters -/

/-- A collection marks blocks and takes blocks back, and there are fewer of them than words. -/
theorem Ordered.collect_le (ho : h.Ordered blocks) (hroots : roots.Regular L) :
    (h.collect roots).1.marked ≤ L.heap ∧ (h.collect roots).1.reclaimed ≤ L.heap := by
  obtain ⟨traces, r, g, mid, visited, hrun, hr, hsum, hnodup, hvis⟩ := ho.collect_rebuilt hroots
  have hlength := ho.tiles.length_le
  have hend : L.heapEnd = L.heapStart + L.heap := rfl
  -- A collection visits no block twice, so marking counts at most all of them.
  have hvisited : visited.length ≤ blocks.length :=
    (List.subperm_of_subset hnodup fun b hb =>
      (ho.allocated_iff.1 ((hvis b).1 hb).allocated).1).length_le
  have hmarked : Collection.marked ⟨traces, .ok r⟩ = visited.length := hsum
  have hreclaimed : r.reclaimed ≤ blocks.length := by
    rw [hr.counted.reclaimed]
    exact List.countP_le_length
  rw [hrun]
  exact ⟨by rw [hmarked]; omega, Nat.le_trans hreclaimed (by omega)⟩

/-- **One step.** A step counts at most one block handed out, one collection and one refusal. -/
theorem Ordered.within_step (ho : h.Ordered blocks) (hs : s.Regular h) {n : Nat}
    (hn : h.counters.Within n L.heap) : (s.apply h).counters.Within (n + 1) L.heap := by
  have hgranted : (s.granted h).toList.length ≤ 1 := Option.length_toList_le
  have haccount : (s.account h).toList.length ≤ 1 := Option.length_toList_le
  have hrefused : s.refused h ≤ 1 := by
    unfold Step.refused
    split
    · split <;> omega
    all_goals omega
  have hcollected : ((s.account h).toList.map Collection.marked).sum ≤ L.heap ∧
      ((s.account h).toList.map Collection.reclaimed).sum ≤ L.heap := by
    rcases ho.account_cases hs with ⟨hnone, _⟩ | ⟨roots, hroots, hsome, _⟩
    · simp [hnone]
    · simpa [hsome] using ho.collect_le hroots
  obtain ⟨hallocations, hcollections, hfailures, hmarked, hreclaimed⟩ := hn
  rw [ho.counters_apply hs]
  refine ⟨?_, ?_, ?_, ?_, ?_⟩
  all_goals simp only [Counters.after, Nat.succ_mul]; omega

/-! ### A run -/

theorem Reached.run (hr : h.Reached) (hsteps : h.Allows steps) : (h.run steps).Reached := by
  induction steps generalizing h with
  | nil => exact hr
  | cons s steps ih => exact ih (hr.step hsteps.1) hsteps.2

/-- No step of a run of regular use ends in a fault. -/
theorem Reached.completed_run (hr : h.Reached) (hsteps : h.Allows steps) :
    ∀ answer ∈ h.answers steps, answer.Completed := by
  induction steps generalizing h with
  | nil => exact fun _ hmem => absurd hmem List.not_mem_nil
  | cons s steps ih =>
    obtain ⟨blocks, ho⟩ := hr.ordered
    exact List.forall_mem_cons.2 ⟨ho.completed hsteps.1, ih (hr.step hsteps.1) hsteps.2⟩

/-- The counters grow with the length of a run. -/
theorem Reached.within_run (hr : h.Reached) (hsteps : h.Allows steps) {n : Nat}
    (hn : h.counters.Within n L.heap) :
    (h.run steps).counters.Within (n + steps.length) L.heap := by
  induction steps generalizing h n with
  | nil => exact hn
  | cons s steps ih =>
    obtain ⟨blocks, ho⟩ := hr.ordered
    have hlater := ih (hr.step hsteps.1) hsteps.2 (ho.within_step hsteps.1 hn)
    rwa [Nat.add_assoc, Nat.add_comm 1] at hlater

end Heap

namespace Checked

/-- **Normal use.** In any arena and from any start on, placing a heap forms no number that fails a
    check. Nor does any run of regular use, which ends in no fault, nor a look at the heap
    afterwards, which shows no null address. The counters stay within what the steps so far allow:
    a heap has at most `Header.maxSize + 1` words, so they stay far below 64 bits. -/
theorem normal_use (a : Arena) (start : Pointer) :
    intoHeap a start = .ok (a.intoHeap start) ∧
      ∀ (L : Layout) (h : Heap L), a.intoHeap start = .ok ⟨L, h⟩ →
        ∀ steps : List Step, h.Allows steps →
          run steps h = (.ok (h.answers steps), h.run steps) ∧
          (∀ answer ∈ h.answers steps, answer.Completed) ∧
          (h.run steps).Presentable ∧
          (h.run steps).counters.Within steps.length L.heap ∧
          L.heap ≤ Header.maxSize + Header.words := by
  refine ⟨intoHeap_eq a start, fun L h ha steps hsteps => ?_⟩
  have hr : h.Reached := .placed ha
  obtain ⟨blocks, ho⟩ := (hr.run hsteps).ordered
  have hnone : h.counters.Within 0 L.heap := by
    obtain ⟨_, rfl⟩ := Heap.eq_fresh_of_intoHeap ha
    exact ⟨Nat.zero_le _, Nat.zero_le _, Nat.zero_le _, Nat.zero_le _, Nat.zero_le _⟩
  have hcounters := hr.within_run hsteps hnone
  rw [Nat.zero_add] at hcounters
  exact ⟨run_eq hr hsteps, hr.completed_run hsteps, ho.presentable, hcounters, L.recordable⟩

/-- A request for more words than there are, between two that are granted, and a store. -/
theorem normal_use_small :
    let steps := [.tryAllocate 7 2, .store 3 0 99, .allocate 8 (2 ^ 64 - 1) .unset,
      .tryAllocate 255 13]
    Arena.small.intoHeap (.ofIndex 1) = .ok ⟨Layout.small, Heap.small⟩ ∧
      Heap.small.Allows steps ∧
      run steps Heap.small = (.ok (Heap.small.answers steps), Heap.small.run steps) ∧
      (Heap.small.run steps).counters =
        { allocations := 2, collections := 1, marked := 0, reclaimed := 1, failures := 1 } ∧
      (Heap.small.run steps).Presentable := by
  intro steps
  have hsteps : Heap.small.Allows steps := by
    refine ⟨trivial, ?_, Roots.regular_unset _, trivial, trivial⟩
    show Heap.Allocated _ 3
    decide +kernel
  obtain ⟨hrun, _, hpresentable, _⟩ :=
    (normal_use Arena.small (.ofIndex 1)).2 _ _ Arena.intoHeap_small steps hsteps
  exact ⟨Arena.intoHeap_small, hsteps, hrun, by decide +kernel, hpresentable⟩

end Checked

end ArenaHeap
