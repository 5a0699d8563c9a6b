import ArenaHeap.Proofs.Repetition

namespace ArenaHeap

/-!
# Accounting

A heap is counted in four ways: the walk adds up its blocks, the list of free blocks and the bits
say which are free, each collection reports what it found and left, and the counters run along.
In regular use the four agree, as long as no request asks for the tag of free blocks.

* `Heap.Reached.usage_agrees_iff` — what the walk adds up, compared with the list and the bits.
* `Heap.Ordered.counters_apply` — a step counts what it tells its caller.
* `Heap.Ordered.reconciled` — the report of a collection, compared with the walk before and after.
* `Heap.Balanced.step` — one step keeps the books.
* `Heap.accounting` — so the books are right after every run.
-/

variable {L : Layout}

/-! ### The walk and the list -/

/-- The usage `u` of a heap agrees with its list of free blocks, which is `listed`, and with its
    bits. -/
structure Usage.Agrees (u : Usage) (h : Heap L) (listed : List Nat) : Prop where
  freeBlocks : u.freeBlocks = listed.length
  freeWords : u.freeWords = (listed.map h.sizeOf).sum
  usedBlocks : u.usedBlocks = h.bitCount

namespace Heap

/-- The usage `u` of a heap takes the blocks on the list of free blocks, which is `listed`, for
    free, and besides those in `disguised`, which are in use. -/
structure Tallied (h : Heap L) (u : Usage) (listed disguised : List Nat) : Prop where
  usage : h.usage = .ok u
  freeList : h.freeList commonList = .ok (listed.map VAddr.ofIndex).toArray
  /-- A block that is in use is taken for free if it was handed out with the tag of free blocks. -/
  disguised_iff : ∀ b, b ∈ disguised ↔ h.Allocated b ∧ h.tagOf b = Tag.free
  nodup : disguised.Nodup
  freeBlocks : u.freeBlocks = listed.length + disguised.length
  freeWords : u.freeWords = (listed.map h.sizeOf).sum + (disguised.map h.sizeOf).sum
  usedBlocks : u.usedBlocks + disguised.length = h.bitCount

variable {h h' m : Heap L} {blocks mid after : List Nat} {s : Step} {g : Grant} {roots : Roots}

theorem Ordered.tallied (ho : h.Ordered blocks) :
    ∃ u, Tallied h u (h.freeOf blocks) (h.disguisedOf blocks) := by
  refine ⟨_, usage_eq_ok ho.tiles, ho.freeList, fun b => ho.mem_disguisedOf_iff,
    (ho.tiles.nodup.filter _).filter _, ?freeBlocks, ?freeWords, ?usedBlocks⟩
  case freeBlocks =>
    rw [← List.length_append]
    exact ho.markedFree_perm.length_eq
  case freeWords =>
    rw [← List.sum_append, ← List.map_append]
    exact (ho.markedFree_perm.map h.sizeOf).sum_eq
  case usedBlocks =>
    rw [ho.bitCount_eq, ho.usedOf_perm.length_eq, List.length_append]
    exact Nat.add_comm ..

/-- The walk agrees with list and bits just if no block in use is disguised. -/
theorem Tallied.agrees_iff {u : Usage} {listed disguised : List Nat}
    (ht : Tallied h u listed disguised) : u.Agrees h listed ↔ disguised = [] := by
  constructor
  · intro ha
    have hcount := ht.freeBlocks
    rw [ha.freeBlocks] at hcount
    exact List.eq_nil_of_length_eq_zero (by omega)
  · rintro rfl
    exact ⟨ht.freeBlocks, ht.freeWords, ht.usedBlocks⟩

/-- **Usage and free list.** In regular use the walk counts as free what is on the list of free
    blocks, and besides just the blocks in use that a request gave the tag of free blocks. So the
    two agree, and the used blocks are those whose bit is set, as long as there is none of these. -/
theorem Reached.usage_agrees_iff (hr : h.Reached) :
    ∃ u listed disguised, Tallied h u listed disguised ∧
      (u.Agrees h listed ↔ ∀ b, h.Allocated b → h.tagOf b ≠ Tag.free) := by
  obtain ⟨blocks, ho⟩ := hr.ordered
  obtain ⟨u, ht⟩ := ho.tallied
  refine ⟨u, _, _, ht, ht.agrees_iff.trans ?_⟩
  rw [List.eq_nil_iff_forall_not_mem]
  refine forall_congr' fun b => ?_
  rw [ht.disguised_iff, not_and]

/-- After a request for a block tagged as free the walk counts the block as free. -/
theorem usage_agrees_iff_disguised :
    let h := (Step.tryAllocate Tag.free 2).apply Heap.small
    h.Reached ∧ h.Allocated 3 ∧ h.tagOf 3 = Tag.free ∧
      ∃ u listed disguised, Tallied h u listed disguised ∧ ¬ u.Agrees h listed := by
  intro h
  have hr : h.Reached := reached_small.step trivial
  have hused : h.Allocated 3 := by decide +kernel
  have hfree : h.tagOf 3 = Tag.free := by decide +kernel
  obtain ⟨u, listed, disguised, ht, hiff⟩ := hr.usage_agrees_iff
  exact ⟨hr, hused, hfree, u, listed, disguised, ht, fun ha => hiff.1 ha 3 hused hfree⟩

/-- So not in every heap in regular use are the blocks that the walk counts as free those on the
    list. -/
theorem not_usage_agrees_always :
    ¬ ∀ (L : Layout) (h : Heap L), h.Reached → ∀ u list, h.usage = .ok u →
      h.freeList commonList = .ok list → u.freeBlocks = list.size := by
  intro hall
  have hr : ((Step.tryAllocate Tag.free 2).apply Heap.small).Reached := reached_small.step trivial
  have husage : ((Step.tryAllocate Tag.free 2).apply Heap.small).usage = .ok {
      reservedWords := 1, bitmapWords := 1, heapWords := 14,
      freeBlocks := 2, freeWords := 12 } := by
    decide +kernel
  have hlist : ((Step.tryAllocate Tag.free 2).apply Heap.small).freeList commonList =
      .ok #[VAddr.ofIndex 6] := by
    decide +kernel
  exact absurd (hall _ _ hr _ _ husage hlist) (by decide)

end Heap

/-! ### The counters -/

/-- The blocks that a collection took back, if it completed. -/
def Collection.reclaimed (c : Collection) : Nat :=
  match c.outcome with
  | .ok r => r.reclaimed
  | .error _ => 0

namespace Step

/-- The account of the collection that a step runs, if it does. -/
def account (h : Heap L) : Step → Option Collection
  | allocate tag size roots => (h.allocate tag size roots).1.collection
  | collect roots => some (h.collect roots).1
  | tryAllocate _ _ => none
  | store _ _ _ => none
  | storeReserved _ _ => none

/-- How many requests a step refuses for want of memory. -/
def refused (h : Heap L) : Step → Nat
  | allocate tag size roots =>
    match (h.allocate tag size roots).1.outcome with
    | .ok (.error (.outOfMemory _ _)) => 1
    | _ => 0
  | tryAllocate _ _ => 0
  | collect _ => 0
  | store _ _ _ => 0
  | storeReserved _ _ => 0

end Step

/-- The counters after a step that ran a collection or not, handed out a block or not, and refused
    some requests. -/
def Counters.after (c : Counters) (account : Option Collection) (granted : Option Grant)
    (refused : Nat) : Counters where
  allocations := c.allocations + granted.toList.length
  collections := c.collections + account.toList.length
  marked := c.marked + (account.toList.map Collection.marked).sum
  reclaimed := c.reclaimed + (account.toList.map Collection.reclaimed).sum
  failures := c.failures + refused

namespace Heap

variable {h h' m : Heap L} {blocks mid after : List Nat} {s : Step} {g : Grant} {roots : Roots}
  {tag : Tag} {size : Nat} {c : Collection}

/-- A request counts the block that it hands out. -/
theorem Ordered.counters_tryAllocate (ho : h.Ordered blocks) (tag : Tag) (size : Nat) :
    (HeapM.tryAllocate tag size h = (.ok none, h)) ∨
      ∃ g h', HeapM.tryAllocate tag size h = (.ok (some g), h') ∧
        h'.counters = h.counters.after none (some g) 0 := by
  cases hfit : h.firstFit (requestSize size) none (h.freeOf blocks) with
  | none => exact .inl (HeapM.tryAllocate_eq_none ho hfit)
  | some fit =>
    obtain ⟨front, back, hf⟩ := Fitting.of_firstFit hfit
    exact .inr ⟨_, _, HeapM.tryAllocate_eq_some ho hfit hf, Ordered.counters_awarded⟩

/-- A collection counts itself and what it marked and took back. -/
theorem Ordered.counters_collect (ho : h.Ordered blocks) (hroots : roots.Regular L) :
    ∃ traces r m mid, h.collect roots = (⟨traces, .ok r⟩, m) ∧ Collected h roots blocks m mid ∧
      m.counters = h.counters.after (some ⟨traces, .ok r⟩) none 0 := by
  obtain ⟨traces, r, g, mid, visited, hrun, hr, hsum, _, hvis⟩ := ho.collect_rebuilt hroots
  have hmarked : Collection.marked ⟨traces, .ok r⟩ = visited.length := hsum
  refine ⟨traces, r, _, mid, hrun, (ho.rebuilt hvis hr).of_words rfl rfl, ?_⟩
  rw [countCollection, hr.counters, counters_clearBits, ← hmarked]
  rfl

/-- The second attempt at a request counts the block that it hands out, or the refusal. -/
theorem Collected.counters_retry (hc : Collected h roots blocks m mid) (tag : Tag) (size : Nat) :
    (∃ free h', m.retry tag size = (.ok (.error (.outOfMemory size free)), h') ∧
      h'.counters = m.counters.after none none 1) ∨
    ∃ g h', m.retry tag size = (.ok (.ok g), h') ∧
      h'.counters = m.counters.after none (some g) 0 := by
  rcases hc.ordered.counters_tryAllocate tag size with hrun | ⟨g, h', hrun, hcounters⟩
  · exact .inl ⟨_, _, hc.retry_of_none hrun, rfl⟩
  · exact .inr ⟨g, h', retry_of_granted hrun, hcounters⟩

/-- What a request that may collect counts. -/
theorem Ordered.counters_allocate (ho : h.Ordered blocks) (hroots : roots.Regular L) (tag : Tag)
    (size : Nat) : ((Step.allocate tag size roots).apply h).counters =
      h.counters.after ((Step.allocate tag size roots).account h)
        ((Step.allocate tag size roots).granted h) ((Step.allocate tag size roots).refused h) := by
  unfold Step.apply Step.account Step.granted Step.refused
  by_cases htag : tag = Tag.free
  · simp only [h.allocate_of_reserved htag]
    rfl
  rcases ho.counters_tryAllocate tag size with hrun | ⟨g, h', hrun, hcounters⟩
  · obtain ⟨traces, r, m, mid, hcollect, hc, hcounters⟩ := ho.counters_collect hroots
    simp only [allocate_of_collected htag hrun hcollect]
    -- The collection is counted first, the second attempt on top of it.
    rcases hc.counters_retry tag size with ⟨free, h', hretry, hlater⟩ | ⟨g, h', hretry, hlater⟩
    · simp only [hretry, hlater, hcounters]
      rfl
    · simp only [hretry, hlater, hcounters]
      rfl
  · simp only [allocate_of_granted htag hrun]
    exact hcounters

/-- **Counting.** The counters follow what the steps tell their caller. -/
theorem Ordered.counters_apply (ho : h.Ordered blocks) (hs : s.Regular h) :
    (s.apply h).counters = h.counters.after (s.account h) (s.granted h) (s.refused h) := by
  cases s with
  | tryAllocate tag size =>
    unfold Step.apply Step.account Step.granted Step.refused
    rcases ho.counters_tryAllocate tag size with hrun | ⟨g, h', hrun, hcounters⟩
    · simp only [hrun]
      rfl
    · simp only [hrun]
      exact hcounters
  | allocate tag size roots => exact ho.counters_allocate hs tag size
  | collect roots =>
    obtain ⟨traces, r, m, mid, hrun, _, hcounters⟩ := ho.counters_collect hs
    unfold Step.apply Step.account Step.granted Step.refused
    simp only [hrun]
    exact hcounters
  | store b k w =>
    show (HeapM.store (.ofIndex b) k w h).2.counters = h.counters
    rw [ho.store_apply hs]
    split <;> rfl
  | storeReserved k w =>
    show (HeapM.storeReserved k w h).2.counters = h.counters
    rw [HeapM.storeReserved_apply]
    split <;> rfl

/-! ### The report of a collection -/

/-- The account of a collection that made the heap `m` of `h` agrees with what the walk adds up
    before and afterwards. -/
structure Reconciled (h : Heap L) (c : Collection) (m : Heap L) (r : SweepReport)
    (before after : Usage) : Prop where
  outcome : c.outcome = .ok r
  usage_before : h.usage = .ok before
  usage_after : m.usage = .ok after
  marked : c.marked = r.live
  live : r.live = after.usedBlocks
  reclaimed : r.live + r.reclaimed = before.usedBlocks
  freeBlocks : r.freeBlocks = after.freeBlocks
  freeWords : r.freeWords = after.freeWords

/-- The allocated blocks that were not visited are those that a sweep takes back. -/
theorem Counted.live_add_reclaimed {visited : List Nat} {r : SweepReport}
    (hc : Counted (h.clearBits visited) blocks m mid r) (ho : h.Ordered blocks) (htag : h.Tagged)
    (hvis : ∀ b ∈ visited, h.Allocated b) : r.live + r.reclaimed = (h.usedOf blocks).length := by
  have hin : ∀ b ∈ visited, L.InHeap b := fun b hb => (hvis b hb).1
  have hlive : r.live = (h.usedOf blocks).countP fun b => decide (b ∈ visited) := by
    rw [hc.live, usedOf, List.countP_filter]
    refine List.countP_congr fun b hb => ?_
    simp only [decide_eq_true_eq, Bool.and_eq_true, ho.spared_iff hvis hb]
    exact ⟨fun hs => ⟨hs.1, (hvis b hs.1).2⟩, fun hs => ⟨hs.1, htag b (hvis b hs.1)⟩⟩
  have hreclaimed : r.reclaimed = (h.usedOf blocks).countP fun b => !decide (b ∈ visited) := by
    rw [hc.reclaimed, usedOf, List.countP_filter]
    refine List.countP_congr fun b hb => ?_
    have hlow := (ho.bounds hb).1
    rw [tagOf_congr (word_clearBits hin (.inr (by omega))), bit_clearBits hin (Nat.le_of_lt hlow)]
    simp only [Bool.and_eq_true, decide_eq_true_eq]
    exact ⟨fun hs => ⟨hs.1.2, hs.1.1⟩,
      fun hs => ⟨⟨hs.2, hs.1⟩, htag b ⟨ho.inHeap hb, hs.2⟩⟩⟩
  rw [hlive, hreclaimed, List.length_eq_countP_add_countP fun b => decide (b ∈ visited)]
  simp

/-- **A collection's report.** On a heap whose allocated blocks are not tagged as free, a collection
    reports what the walk adds up: the blocks in use, those before it, and what is free. -/
theorem Ordered.reconciled (ho : h.Ordered blocks) (htag : h.Tagged) (hroots : roots.Regular L) :
    ∃ c m r before after, h.collect roots = (c, m) ∧ Reconciled h c m r before after := by
  obtain ⟨traces, r, g, mid, visited, hrun, hr, hsum, hnodup, hvis⟩ := ho.collect_rebuilt hroots
  have hallocated : ∀ b ∈ visited, h.Allocated b := fun b hb => ((hvis b).1 hb).allocated
  have hc : Collected h roots blocks (g.countCollection visited.length r.reclaimed) mid :=
    (ho.rebuilt hvis hr).of_words rfl rfl
  have hlive := hr.counted.live_eq ho htag hallocated hnodup
  refine ⟨_, _, r, _, _, hrun, rfl, ho.usage_of_tagged htag, hc.ordered.usage_of_tagged hc.tagged,
    hsum.trans hlive.symm, ?live, ?reclaimed, ?freeBlocks, ?freeWords⟩
  case live =>
    -- The blocks visited are the survivors, and hence those in use afterwards.
    rw [hlive, ← hc.ordered.bitCount_eq]
    refine (bitCount_eq_length hnodup fun b => ?_).symm
    rw [hvis, hc.allocated_iff]
    exact ⟨fun hb => ⟨hb, htag b hb.allocated⟩, fun hs => hs.1⟩
  case reclaimed => exact hr.counted.live_add_reclaimed ho htag hallocated
  case freeBlocks =>
    rw [hr.counted.freeBlocks, ← ho.freeOf_rebuilt hallocated hr]
    rfl
  case freeWords =>
    rw [hr.counted.freeWords, ← ho.freeOf_rebuilt hallocated hr]
    rfl

/-! ### Keeping the books -/

/-- The books of a heap whose collections so far gave the accounts `accounts`. -/
structure Balanced (h : Heap L) (accounts : List Collection) : Prop where
  /-- What was handed out is in use or was taken back. -/
  allocations : h.counters.allocations = h.bitCount + h.counters.reclaimed
  collections : h.counters.collections = accounts.length
  marked : h.counters.marked = (accounts.map Collection.marked).sum
  reclaimed : h.counters.reclaimed = (accounts.map Collection.reclaimed).sum

/-- A step that gives the account of a collection ran the collection from roots that it can read,
    and no other step completes one. -/
theorem Ordered.account_cases (ho : h.Ordered blocks) (hs : s.Regular h) :
    (s.account h = none ∧ s.collected h = none) ∨
    ∃ roots, roots.Regular L ∧ s.account h = some (h.collect roots).1 ∧
      s.collected h = some roots := by
  cases s with
  | allocate tag size roots =>
    unfold Step.account Step.collected
    by_cases htag : tag = Tag.free
    · simp [h.allocate_of_reserved htag]
    rcases ho.allocate_cases hs htag size with ⟨g, h', after, hrun, _⟩ |
      ⟨traces, r, m, mid, hcollect, _, _, ⟨hrun, _⟩ | ⟨g, h', after, hrun, _⟩⟩
    · simp [hrun]
    · exact .inr ⟨roots, hs, by simp [hrun, hcollect]⟩
    · exact .inr ⟨roots, hs, by simp [hrun, hcollect]⟩
  | collect roots =>
    obtain ⟨traces, r, m, mid, hcollect, _⟩ := ho.counters_collect hs
    refine .inr ⟨roots, hs, rfl, ?_⟩
    simp [Step.collected, hcollect]
  | tryAllocate _ _ => exact .inl ⟨rfl, rfl⟩
  | store _ _ _ => exact .inl ⟨rfl, rfl⟩
  | storeReserved _ _ => exact .inl ⟨rfl, rfl⟩

/-- A block that is handed out sets one bit more. -/
theorem Granted.bitCount_eq (hg : Granted m mid tag size g h' after) (ho : m.Ordered mid) :
    h'.bitCount = m.bitCount + 1 := by
  have hin := ho.inHeap hg.mem_before
  -- The blocks in use afterwards are those before and the one handed out, which is new.
  have hnew : g.block ∉ m.usedOf mid := fun hmem => by
    have hset := (mem_usedOf.1 hmem).2
    rw [hg.free_before] at hset
    cases hset
  rw [ho.bitCount_eq, ← List.length_cons (a := g.block)]
  refine bitCount_eq_length (List.nodup_cons.2 ⟨hnew, ho.tiles.nodup.filter _⟩) fun b => ?_
  rw [List.mem_cons, ho.mem_usedOf_iff]
  constructor
  · rintro (rfl | hb)
    · exact ⟨hin, by rw [hg.bit_eq _ hin.hasBit]; simp⟩
    · exact ⟨hb.1, by rw [hg.bit_eq _ hb.1.hasBit, hb.2, Bool.or_true]⟩
  · rintro ⟨hb, hset⟩
    rw [hg.bit_eq _ hb.hasBit, Bool.or_eq_true, decide_eq_true_eq] at hset
    exact hset.imp Eq.symm fun hset => ⟨hb, hset⟩

/-- The walk counts the bits that are set. -/
theorem Ordered.usedBlocks_eq (ho : h.Ordered blocks) (htag : h.Tagged) {u : Usage}
    (hu : h.usage = .ok u) : u.usedBlocks = h.bitCount := by
  rw [ho.usage_of_tagged htag] at hu
  cases hu
  exact ho.bitCount_eq.symm

/-- What a collection takes back has its bit cleared. -/
theorem Collected.bitCount_add (hc : Collected h roots blocks m mid) (ho : h.Ordered blocks)
    (htag : h.Tagged) (hroots : roots.Regular L) :
    m.bitCount + (h.collect roots).1.reclaimed = h.bitCount := by
  obtain ⟨c, m', r, before, after, hrun, hr⟩ := ho.reconciled htag hroots
  obtain ⟨traces, r', m', mid', hrun', hc', _⟩ := ho.counters_collect hroots
  rw [hrun] at hrun'
  cases hrun'
  -- `m` need not be what the collection left, but it has the same bits.
  have hsame : m.bitCount = m'.bitCount := bitCount_congr fun i hi => by
    rw [Bool.eq_iff_iff, hc.bit_iff i hi.hasBit, hc'.bit_iff i hi.hasBit]
  have hreclaimed := hr.reclaimed
  rw [hr.live, hc'.ordered.usedBlocks_eq hc'.tagged hr.usage_after,
    ho.usedBlocks_eq htag hr.usage_before] at hreclaimed
  cases hr.outcome
  rw [hrun, hsame, ← hreclaimed]
  rfl

/-- A collection takes from the bits what it reports, whether a step runs it alone or before it
    hands out a block. -/
theorem Settled.bitCount_add (hm : Settled h blocks (s.collected h) m mid) (ho : h.Ordered blocks)
    (htag : h.Tagged) (hs : s.Regular h) :
    m.bitCount + ((s.account h).toList.map Collection.reclaimed).sum = h.bitCount := by
  rcases ho.account_cases hs with ⟨haccount, hcollected⟩ | ⟨roots, hroots, haccount, hcollected⟩
  · rw [hcollected] at hm
    obtain ⟨rfl, rfl⟩ := hm
    simp [haccount]
  · rw [hcollected] at hm
    simpa [haccount] using Collected.bitCount_add hm ho htag hroots

/-- The bits that are set after a step, and what was taken back in it, are those set before and
    what was handed out. -/
theorem Ordered.bitCount_step (ho : h.Ordered blocks) (htag : h.Tagged) (hs : s.Regular h) :
    (s.apply h).bitCount + ((s.account h).toList.map Collection.reclaimed).sum =
      h.bitCount + (s.granted h).toList.length := by
  cases ho.stepped hs with
  | granted hm hg hgranted =>
    have hsum := hm.bitCount_add ho htag hs
    rw [hgranted.bitCount_eq (hm.ordered ho), hg]
    simp
    omega
  | kept hm hg hkept =>
    rw [bitCount_congr fun i hi => hkept.bit_eq hi.hasBit, hm.bitCount_add ho htag hs, hg]
    simp

/-- **One step keeps the books.** -/
theorem Balanced.step {accounts : List Collection} (hb : Balanced h accounts)
    (ho : h.Ordered blocks) (htag : h.Tagged) (hs : s.Regular h) :
    Balanced (s.apply h) (accounts ++ (s.account h).toList) := by
  have hbits := ho.bitCount_step htag hs
  refine ⟨?allocations, ?collections, ?marked, ?reclaimed⟩
  all_goals rw [ho.counters_apply hs, Counters.after]
  case allocations =>
    have hallocations := hb.allocations
    simp only
    omega
  case collections => simp [hb.collections]
  case marked => simp [hb.marked]
  case reclaimed => simp [hb.reclaimed]

/-- Every one of some steps is regular where it is taken. -/
def Allows (h : Heap L) : List Step → Prop
  | [] => True
  | s :: steps => s.Regular h ∧ (s.apply h).Allows steps

/-- The accounts of the collections that some steps run, one after the other. -/
def accounts (h : Heap L) : List Step → List Collection
  | [] => []
  | s :: steps => (s.account h).toList ++ (s.apply h).accounts steps

/-- **A run keeps the books.** -/
theorem Balanced.run {past : List Collection} (hb : Balanced h past) (hr : h.ReachedTagged)
    {steps : List Step} (hsteps : h.Allows steps) (htags : ∀ s ∈ steps, s.Tagged) :
    (h.run steps).ReachedTagged ∧ Balanced (h.run steps) (past ++ h.accounts steps) := by
  induction steps generalizing h past with
  | nil => exact ⟨hr, by rw [accounts, List.append_nil]; exact hb⟩
  | cons s steps ih =>
    obtain ⟨hs, hrest⟩ := hsteps
    obtain ⟨hst, htags⟩ := List.forall_mem_cons.1 htags
    obtain ⟨blocks, ho⟩ := hr.reached.ordered
    have hlater := ih (hb.step ho hr.tagged hs) (hr.step hs hst) hrest htags
    rwa [List.append_assoc] at hlater

/-- A heap that was just placed has counted nothing, and it has nothing to count. -/
theorem balanced_fresh (L : Layout) (words : Vector Word L.size) :
    Balanced (fresh L words) [] := by
  have hnone : (fresh L words).bitCount = 0 := by
    refine bitCount_eq_length List.nodup_nil fun b => ?_
    refine iff_of_false List.not_mem_nil fun hb => ?_
    have hclear := bit_fresh L words hb.1.hasBit
    rw [hb.2] at hclear
    cases hclear
  exact ⟨by rw [hnone]; rfl, rfl, rfl, rfl⟩

/-- **Accounting.** After every run of regular use that asks for no block tagged as free, the walk
    adds up to all words, the blocks handed out are in use or were taken back, and the counters sum
    up the accounts of the collections so far. The account of the next one agrees with what the walk
    adds up before and afterwards. -/
theorem accounting {a : Arena} {start : Pointer} (ha : a.intoHeap start = .ok ⟨L, h⟩)
    {steps : List Step} (hsteps : h.Allows steps) (htags : ∀ s ∈ steps, s.Tagged) :
    let now := h.run steps
    (∃ u, now.usage = .ok u ∧ u.heapWords = L.heap ∧ u.blockWords = L.heap ∧
      u.reservedWords + u.bitmapWords + u.heapWords = a.length ∧
      now.counters.allocations = u.usedBlocks + now.counters.reclaimed) ∧
    now.counters.collections = (h.accounts steps).length ∧
    now.counters.marked = ((h.accounts steps).map Collection.marked).sum ∧
    now.counters.reclaimed = ((h.accounts steps).map Collection.reclaimed).sum ∧
    ∀ s : Step, s.Regular now → ∀ c ∈ s.account now, ∃ roots m r before after,
      s.collected now = some roots ∧ now.collect roots = (c, m) ∧
        Reconciled now c m r before after := by
  intro now
  have hplaced : h.ReachedTagged := .placed ha
  obtain ⟨words, hfresh⟩ := eq_fresh_of_intoHeap ha
  have hbalanced : Balanced h [] := hfresh ▸ balanced_fresh L words
  obtain ⟨hr, hbooks⟩ := hbalanced.run hplaced hsteps htags
  obtain ⟨blocks, ho⟩ := hr.reached.ordered
  have htag : now.Tagged := hr.tagged
  refine ⟨?usage, hbooks.collections, hbooks.marked, hbooks.reclaimed, ?reports⟩
  case usage =>
    have husage := ho.usage_of_tagged htag
    obtain ⟨hsize, _⟩ := place_of_intoHeap ha
    refine ⟨_, husage, rfl, blockWords_eq ho.tiles husage, hsize, ?_⟩
    rw [ho.usedBlocks_eq htag husage]
    exact hbooks.allocations
  case reports =>
    intro s hs c hc
    rcases ho.account_cases hs with ⟨hnone, _⟩ | ⟨roots, hroots, haccount, hcollected⟩
    · rw [hnone] at hc
      cases hc
    · obtain ⟨c', m, r, before, after, hrun, hreconciled⟩ := ho.reconciled htag hroots
      rw [haccount, hrun] at hc
      cases hc
      exact ⟨roots, m, r, before, after, hcollected, hrun, hreconciled⟩

/-- The books after a request that had to collect two blocks first, and the account of a collection
    that takes back what it handed out. -/
theorem accounting_small :
    let steps := [.tryAllocate 7 2, .store 3 0 99, .tryAllocate 8 3, .allocate 9 8 .unset]
    let now := Heap.small.run steps
    Arena.small.intoHeap (.ofIndex 1) = .ok ⟨Layout.small, Heap.small⟩ ∧
      Heap.small.Allows steps ∧ (∀ s ∈ steps, s.Tagged) ∧
      now.counters = { allocations := 3, collections := 1, marked := 0, reclaimed := 2 } ∧
      (∃ u, now.usage = .ok u ∧ 3 = u.usedBlocks + 2) ∧
      ∃ c m r before after, (Step.collect .unset).account now = some c ∧
        now.collect .unset = (c, m) ∧ r.reclaimed = 1 ∧ Reconciled now c m r before after := by
  intro steps now
  have hsteps : Heap.small.Allows steps := by
    refine ⟨trivial, ?_, trivial, Roots.regular_unset _, trivial⟩
    show Heap.Allocated _ 3
    decide +kernel
  have hcounters : now.counters =
      { allocations := 3, collections := 1, marked := 0, reclaimed := 2 } := by
    decide +kernel
  have hreclaimed : (now.collect .unset).1.reclaimed = 1 := by decide +kernel
  have hcollected : (Step.collect .unset).collected now = some .unset := by decide +kernel
  have htags : ∀ s ∈ steps, s.Tagged := by decide
  obtain ⟨⟨u, husage, _, _, _, hused⟩, _, _, _, hreports⟩ :=
    accounting Arena.intoHeap_small hsteps htags
  obtain ⟨roots, m, r, before, after, hroots, hrun, hr⟩ :=
    hreports (.collect .unset) (Roots.regular_unset _) _ rfl
  rw [show (Heap.small.run steps).counters = _ from hcounters] at hused
  cases hcollected.symm.trans hroots
  refine ⟨Arena.intoHeap_small, hsteps, htags, hcounters, ⟨u, husage, hused⟩, _, m, r, before,
    after, rfl, hrun, ?_, hr⟩
  rw [Collection.reclaimed, hr.outcome] at hreclaimed
  exact hreclaimed

end Heap

end ArenaHeap
