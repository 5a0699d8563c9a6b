import ArenaHeap.Proofs.Equality
import ArenaHeap.Proofs.OutOfMemory
import ArenaHeap.Proofs.Ownership
import ArenaHeap.Proofs.Representation

namespace ArenaHeap

/-!
# Heaps that are alike

Memory is not cleared when a heap is placed in it, nor when a block becomes free space. So two heaps
with the same blocks may hold different words in front of the bitmap and inside free blocks.
`Heap.Alike` says that they agree in the bits and headers of all blocks and in the payloads of
the allocated ones. The links need no mention, as they follow from the order of both heaps.

* `Heap.Alike.freeList_eq`, `Heap.Alike.usage_eq`, `Heap.Alike.payload_eq` — what a caller sees of
  heaps that are alike is the same.
* `Heap.Alike.award`, `Heap.Alike.tryAllocate` — the same requests are served with the same blocks,
  whose payloads are stale words until they are written.
* `Heap.Alike.mark`, `Heap.Alike.collect` — collections report the same, and leave heaps that are
  alike, because the free blocks they leave are the gaps between the survivors.
* `Heap.Alike.allocate`, `Heap.Alike.store` — so do requests that may collect, and stores.
* `Heap.Alike.put_payload` — what was written in both heaps is no longer stale.
-/

variable {L : Layout}

namespace Heap

/-- No word at all. -/
def Nowhere (_ : Nat) : Prop := False

/-- Two heaps in order with the same blocks, whose allocated blocks hold the same words but for
    those in `raw`. -/
structure Alike (raw : Nat → Prop) (h h' : Heap L) (blocks : List Nat) : Prop where
  left : h.Ordered blocks
  right : h'.Ordered blocks
  bit_eq : ∀ b ∈ blocks, h'.bit b = h.bit b
  header_eq : ∀ b ∈ blocks, h'.word (b - 1) = h.word (b - 1)
  word_eq : ∀ b ∈ blocks, h.bit b = true → ∀ k < h.sizeOf b, ¬ raw (b + k) →
    h'.word (b + k) = h.word (b + k)
  counters_eq : h'.counters = h.counters

variable {raw raw' : Nat → Prop} {h h' m m' : Heap L} {blocks mid mid' : List Nat} {b : Nat}

namespace Alike

/-! ### The same views -/

section Views

variable (ha : Alike raw h h' blocks)

include ha

theorem sizeOf_eq (hb : b ∈ blocks) : h'.sizeOf b = h.sizeOf b := sizeOf_congr (ha.header_eq b hb)

theorem tagOf_eq (hb : b ∈ blocks) : h'.tagOf b = h.tagOf b := tagOf_congr (ha.header_eq b hb)

theorem symm : Alike raw h' h blocks where
  left := ha.right
  right := ha.left
  bit_eq := fun b hb => (ha.bit_eq b hb).symm
  header_eq := fun b hb => (ha.header_eq b hb).symm
  word_eq := by
    intro b hb hset k hk hraw
    rw [ha.bit_eq b hb] at hset
    rw [ha.sizeOf_eq hb] at hk
    exact (ha.word_eq b hb hset k hk hraw).symm
  counters_eq := ha.counters_eq.symm

/-- Fewer words may be the same than are known to be. -/
theorem mono (hsub : ∀ j, raw j → raw' j) : Alike raw' h h' blocks :=
  { ha with word_eq := fun b hb hset k hk hraw =>
      ha.word_eq b hb hset k hk fun hr => hraw (hsub _ hr) }

/-- Counting changes no word. -/
theorem of_words (hwords : m.words = h.words) (hheads : m.heads = h.heads)
    (hwords' : m'.words = h'.words) (hheads' : m'.heads = h'.heads)
    (hcounters : m'.counters = m.counters) : Alike raw m m' blocks := by
  have hword := word_of_words hwords
  have hword' := word_of_words hwords'
  have hbit : ∀ i, m.bit i = h.bit i := fun i => bit_congr (hword _)
  have hsize : ∀ i, m.sizeOf i = h.sizeOf i := fun i => sizeOf_congr (hword _)
  refine ⟨ha.left.of_words hwords hheads, ha.right.of_words hwords' hheads', fun b hb => ?bit,
    fun b hb => ?header, fun b hb hset k hk hraw => ?word, hcounters⟩
  case bit =>
    rw [hbit, bit_congr (hword' _)]
    exact ha.bit_eq b hb
  case header =>
    rw [hword, hword']
    exact ha.header_eq b hb
  case word =>
    rw [hword, hword']
    rw [hbit] at hset
    rw [hsize] at hk
    exact ha.word_eq b hb hset k hk hraw

/-- No bit is set off the blocks. -/
theorem bit_eq_of_hasBit {i : Nat} (hi : L.HasBit i) : h'.bit i = h.bit i := by
  by_cases hmem : i ∈ blocks
  · exact ha.bit_eq i hmem
  · have hclear : h.bit i = false := by
      by_contra hset
      exact hmem (ha.left.mem_of_bit i hi (by simpa using hset))
    have hclear' : h'.bit i = false := by
      by_contra hset
      exact hmem (ha.right.mem_of_bit i hi (by simpa using hset))
    rw [hclear, hclear']

theorem allocated_iff : h'.Allocated b ↔ h.Allocated b :=
  and_congr_right fun hin => by rw [ha.bit_eq_of_hasBit hin.hasBit]

theorem freeOf_eq : h'.freeOf blocks = h.freeOf blocks := freeOf_congr ha.bit_eq

/-- The walk over the blocks meets the same. -/
theorem blocks_eq : h'.blocks = h.blocks := by
  rw [h.blocks_eq_ok (tiles_iff.2 ha.left.tiles), h'.blocks_eq_ok (tiles_iff.2 ha.right.tiles)]
  have hinfo : ∀ b ∈ blocks, h'.info b = h.info b := by
    intro b hb
    rw [info, info, ha.sizeOf_eq hb, ha.tagOf_eq hb, ha.bit_eq b hb]
  rw [List.map_congr_left hinfo]

theorem usage_eq : h'.usage = h.usage := by
  rw [usage, usage, ha.blocks_eq]

/-- Each list of free blocks has the same addresses. -/
theorem freeList_eq (n : Nat) : h'.freeList n = h.freeList n := by
  by_cases hn : n < listCount
  · by_cases hcommon : n = commonList.val
    · subst hcommon
      rw [ha.left.freeList, ha.right.freeList, ha.freeOf_eq]
    · have hne : (⟨n, hn⟩ : Fin listCount) ≠ commonList := fun hc => hcommon (congrArg Fin.val hc)
      exact (ha.right.freeList_of_ne hne).trans (ha.left.freeList_of_ne hne).symm
  · rw [freeList, freeList, dif_neg hn, dif_neg hn]

end Views

section Settled

variable (ha : Alike Nowhere h h' blocks)

include ha

theorem payloadOf_eq (hb : h.Allocated b) : h'.payloadOf b = h.payloadOf b := by
  obtain ⟨hmem, hset⟩ := ha.left.allocated_iff.1 hb
  exact payloadOf_congr (ha.sizeOf_eq hmem) fun k hk => ha.word_eq b hmem hset k hk not_false

/-- What is reachable is a matter of bits and payloads. -/
theorem reachable {candidates : List VAddr} (hr : h.Reachable candidates b) :
    h'.Reachable candidates b := by
  induction hr with
  | candidate hb hv => exact .candidate (ha.allocated_iff.2 hb) hv
  | word hr hb hv ih =>
    rw [← ha.payloadOf_eq hr.allocated] at hv
    exact .word ih (ha.allocated_iff.2 hb) hv

theorem reachable_iff {candidates : List VAddr} :
    h'.Reachable candidates b ↔ h.Reachable candidates b :=
  ⟨ha.symm.reachable, ha.reachable⟩

theorem survives {roots : Roots} (hs : h.Survives roots b) : h'.Survives roots b := by
  have hmem := (ha.left.allocated_iff.1 hs.1.allocated).1
  exact ⟨ha.reachable hs.1, by rw [ha.tagOf_eq hmem]; exact hs.2⟩

/-- A caller reads the same payload. -/
theorem payload_eq (hb : h.Allocated b) : h'.payload (.ofIndex b) = h.payload (.ofIndex b) := by
  rw [ha.left.payload_eq_ok hb, ha.right.payload_eq_ok (ha.allocated_iff.2 hb), ha.payloadOf_eq hb]

/-! ### Marking -/

section Marking

variable {visited : List Nat} (hnodup : visited.Nodup) (hvis : ∀ b ∈ visited, h.Allocated b)
  (hclosed : h.Closed visited visited)

include hnodup hvis hclosed

/-- Marking from the same root on top of the same blocks visits the same blocks. The two traces
    are compared by what can be reached, so their order is of no account. -/
theorem mark {v : VAddr} (hv : L.Spans v ∨ ¬ v.Aligned) :
    ∃ more, h.Visits visited [v] more ∧
      HeapM.mark v (h.clearBits visited) = (.ok more.length, h.clearBits (more ++ visited)) ∧
      HeapM.mark v (h'.clearBits visited) = (.ok more.length, h'.clearBits (more ++ visited)) := by
  have hvis' : ∀ b ∈ visited, h'.Allocated b := fun b hb => ha.allocated_iff.2 (hvis b hb)
  have hclosed' : h'.Closed visited visited := by
    intro c hc b hb hv
    rw [ha.payloadOf_eq (hvis c hc)] at hv
    exact hclosed c hc b (ha.allocated_iff.1 hb) hv
  have hpend : ∀ w ∈ [v], L.Spans w ∨ ¬ w.Aligned := List.forall_mem_singleton.2 hv
  obtain ⟨more, hm, hrun⟩ := trace_visits ha.left.contained hpend hnodup hvis 0
  obtain ⟨more', hm', hrun'⟩ := trace_visits ha.right.contained hpend hnodup hvis' 0
  rw [Nat.zero_add] at hrun hrun'
  have hsame : ∀ b, b ∈ more' ↔ b ∈ more := fun b => by
    rw [hm.mem_iff hclosed, hm'.mem_iff hclosed', ha.reachable_iff]
  have hlength : more'.length = more.length :=
    ((List.perm_ext_iff_of_nodup (List.nodup_append.1 hm'.nodup).1
      (List.nodup_append.1 hm.nodup).1).2 hsame).length_eq
  have hcleared : h'.clearBits (more' ++ visited) = h'.clearBits (more ++ visited) :=
    clearBits_congr (fun b hb => (hm'.allocated hvis' b hb).1) fun b => by
      rw [List.mem_append, List.mem_append, hsame]
  refine ⟨more, hm, hrun, ?_⟩
  rw [← hcleared, ← hlength]
  exact hrun'

/-- So does marking from all roots. -/
theorem markAll {candidates : List VAddr} (hcand : ∀ v ∈ candidates, L.Spans v ∨ ¬ v.Aligned) :
    ∃ more traces, h.Visits visited candidates more ∧
      (h.clearBits visited).markAll candidates = (traces, .ok (), h.clearBits (more ++ visited)) ∧
      (h'.clearBits visited).markAll candidates =
        (traces, .ok (), h'.clearBits (more ++ visited)) := by
  induction candidates generalizing visited with
  | nil => exact ⟨[], [], .nil hnodup, rfl, rfl⟩
  | cons root roots ih =>
    obtain ⟨hroot, hroots⟩ := List.forall_mem_cons.1 hcand
    obtain ⟨first, hm, hrun, hrun'⟩ := ha.mark hnodup hvis hclosed hroot
    obtain ⟨later, traces, hl, hruns, hruns'⟩ :=
      ih hm.nodup (hm.allocated hvis) (hm.closed_append hclosed) hroots
    refine ⟨later ++ first, ⟨root, first.length⟩ :: traces, hm.append hl, ?_, ?_⟩
    · rw [Heap.markAll, hrun]
      simp only [hruns, List.append_assoc]
    · rw [Heap.markAll, hrun']
      simp only [hruns', List.append_assoc]

end Marking

/-! ### Collections -/

section Collections

variable {roots : Roots}

/-- The same words are left when the survivors are taken away. -/
theorem vacant {i : Nat} (hv : h.Vacant roots i) : h'.Vacant roots i := by
  obtain ⟨hlow, hhigh, hnone⟩ := hv
  refine ⟨hlow, hhigh, fun b hs hcovers => ?_⟩
  have hs' := ha.symm.survives hs
  have hmem := (ha.left.allocated_iff.1 hs'.1.allocated).1
  rw [Covers, ha.sizeOf_eq hmem] at hcovers
  exact hnone b hs' hcovers

theorem gap {start stop : Nat} (hg : h.Gap roots start stop) : h'.Gap roots start stop where
  lt := hg.lt
  vacant := fun i hi hi' => ha.vacant (hg.vacant i hi hi')
  not_before := fun hv => hg.not_before (ha.symm.vacant hv)
  not_behind := fun hv => hg.not_behind (ha.symm.vacant hv)

variable (hc : Collected h roots blocks m mid) (hc' : Collected h' roots blocks m' mid')

include hc hc'

/-- Blocks keep their sizes when they survive, and are as long as the gap they fill when not. -/
theorem sizeOf_collected (hb : b ∈ mid) : m'.sizeOf b = m.sizeOf b := by
  cases hbit : m.bit b with
  | true =>
    have hs := (hc.bit_iff b (hc.ordered.inHeap hb).hasBit).1 hbit
    rw [(hc.views_eq hs).1, (hc'.views_eq (ha.survives hs)).1]
    exact ha.sizeOf_eq (hc.mem_before b hb)
  | false =>
    have hgap := ha.gap (hc.gap_of_free (mem_freeOf.2 ⟨hb, hbit⟩))
    obtain ⟨f, _, hstart, hstop⟩ := hc'.gap_iff.1 hgap
    have hbound := hc.ordered.bounds hb
    obtain rfl : f = b := by omega
    omega

/-- The blocks that two collections leave are the same. -/
theorem collected_blocks_eq : mid' = mid :=
  hc'.ordered.tiles.unique (hc.ordered.tiles.congr fun _ hb => ha.sizeOf_collected hc hc' hb)

/-- What two collections leave is alike. -/
theorem collected (hcounters : m'.counters = m.counters) : Alike Nowhere m m' mid := by
  obtain rfl := ha.collected_blocks_eq hc hc'
  have hsurvives : ∀ b ∈ mid', m.bit b = true → h.Survives roots b := fun b hb hset =>
    (hc.bit_iff b (hc.ordered.inHeap hb).hasBit).1 hset
  have hbit : ∀ b ∈ mid', m'.bit b = m.bit b := by
    intro b hb
    have hin := (hc.ordered.inHeap hb).hasBit
    rw [Bool.eq_iff_iff, hc.bit_iff b hin, hc'.bit_iff b hin]
    exact ⟨ha.symm.survives, ha.survives⟩
  refine ⟨hc.ordered, hc'.ordered, hbit, fun b hb => ?header, fun b hb hset k hk _ => ?word,
    hcounters⟩
  case header =>
    cases hset : m.bit b with
    | true =>
      have hs := hsurvives b hb hset
      have hpos : 0 < b := Nat.lt_of_le_of_lt (Nat.zero_le _) (hc.ordered.bounds hb).1
      rw [hc.header_eq hs hpos, hc'.header_eq (ha.survives hs) hpos]
      exact ha.header_eq b (hc.mem_before b hb)
    | false =>
      -- A free block has the tag of free blocks, so the size is all that its header says.
      refine word_header_eq ?_ (ha.sizeOf_collected hc hc' hb)
      rw [hc.ordered.tagOf_free b hb hset]
      exact hc'.ordered.tagOf_free b hb (by rw [hbit b hb]; exact hset)
  case word =>
    have hs := hsurvives b hb hset
    have hmem := hc.mem_before b hb
    have hbound := hc.ordered.bounds hb
    rw [(hc.views_eq hs).1] at hk
    rw [hc.kept b hs _ ⟨by omega, by omega⟩, hc'.kept b (ha.survives hs) _ ⟨by omega, by
      rw [ha.sizeOf_eq hmem]
      omega⟩]
    exact ha.word_eq b hmem hs.1.allocated.2 k hk not_false

end Collections

/-- The two sweeps report the same. -/
theorem report_eq {visited : List Nat} (hvis : ∀ b ∈ visited, h.Allocated b)
    {r r' : SweepReport} (hc : Counted (h.clearBits visited) blocks m mid r)
    (hc' : Counted (h'.clearBits visited) blocks m' mid r') (hsub : ∀ b ∈ mid, b ∈ blocks)
    (hsize : ∀ b ∈ mid, m'.sizeOf b = m.sizeOf b) : r' = r := by
  have hin : ∀ b ∈ visited, L.InHeap b := fun b hb => (hvis b hb).1
  have hbit : ∀ b ∈ blocks, (h'.clearBits visited).bit b = (h.clearBits visited).bit b := by
    intro b hb
    have hlow := (ha.left.inHeap hb).1
    rw [bit_clearBits hin hlow, bit_clearBits hin hlow, ha.bit_eq b hb]
  have htag : ∀ b ∈ blocks, (h'.clearBits visited).tagOf b = (h.clearBits visited).tagOf b := by
    intro b hb
    have hlow := (ha.left.bounds hb).1
    have hword := word_clearBits (h := h) hin (j := b - 1) (.inr (by omega))
    have hword' := word_clearBits (h := h') hin (j := b - 1) (.inr (by omega))
    exact tagOf_congr (by rw [hword, hword']; exact ha.header_eq b hb)
  have hspared : ∀ b ∈ blocks, (h'.clearBits visited).Spared b ↔ (h.clearBits visited).Spared b :=
    fun b hb => by rw [Spared, Spared, hbit b hb, htag b hb]
  obtain ⟨hfree, hwords⟩ := hc.spaces_eq hc' (fun b hb => hspared b (hsub b hb)) hsize
  have hlive : r'.live = r.live := by
    rw [hc'.live, hc.live]
    exact List.countP_congr fun b hb => by simp only [decide_eq_true_eq, hspared b hb]
  have hreclaimed : r'.reclaimed = r.reclaimed := by
    rw [hc'.reclaimed, hc.reclaimed]
    exact List.countP_congr fun b hb => by rw [hbit b hb, htag b hb]
  show (⟨r'.live, r'.reclaimed, r'.freeBlocks, r'.freeWords⟩ : SweepReport) = r
  rw [hlive, hreclaimed, hfree, hwords]

/-- **Collections.** From the same roots two heaps that are alike are collected with the same
    account, and are alike afterwards. -/
theorem collect {roots : Roots} (hroots : roots.Regular L) :
    ∃ (traces : List RootTrace) (r : SweepReport) (m m' : Heap L) (mid : List Nat),
      h.collect roots = (⟨traces, .ok r⟩, m) ∧ h'.collect roots = (⟨traces, .ok r⟩, m') ∧
      Alike Nowhere m m' mid := by
  have hnone : ∀ {p : Nat → Prop}, ∀ b ∈ ([] : List Nat), p b :=
    fun b hb => absurd hb List.not_mem_nil
  obtain ⟨visited, traces, hm, hmark, hmark'⟩ :=
    ha.markAll List.nodup_nil hnone hnone hroots
  have hvis : ∀ b ∈ visited ++ [], h.Allocated b := hm.allocated hnone
  have hreach : ∀ b, b ∈ visited ↔ h.Reachable roots.candidates b :=
    fun b => hm.mem_iff_reachable
  rw [List.append_nil] at hmark hmark' hvis
  have hin : ∀ b ∈ visited, L.InHeap b := fun b hb => (hvis b hb).1
  obtain ⟨g, mid, r, hsweep, hr⟩ := HeapM.sweep_apply
    (ha.left.tiles.congr fun b hb => sizeOf_clearBits hin (ha.left.bounds hb).1)
  obtain ⟨g', mid', r', hsweep', hr'⟩ := HeapM.sweep_apply
    (ha.right.tiles.congr fun b hb => sizeOf_clearBits hin (ha.right.bounds hb).1)
  have hc := ha.left.rebuilt hreach hr
  have hc' := ha.right.rebuilt (fun b => (hreach b).trans ha.reachable_iff.symm) hr'
  have hcounters : g'.counters = g.counters := by
    rw [hr.counters, hr'.counters, counters_clearBits, counters_clearBits, ha.counters_eq]
  have halike := ha.collected hc hc' hcounters
  obtain rfl := ha.collected_blocks_eq hc hc'
  obtain rfl : r' = r := ha.report_eq hvis hr.counted hr'.counted hc.mem_before
    fun b hb => ha.sizeOf_collected hc hc' hb
  refine ⟨traces, r', g.countCollection (Collection.marked ⟨traces, .ok r'⟩) r'.reclaimed,
    g'.countCollection (Collection.marked ⟨traces, .ok r'⟩) r'.reclaimed, mid', ?_, ?_,
    halike.of_words rfl rfl rfl rfl ?_⟩
  · rw [Heap.collect, show h.markAll roots.candidates = _ from hmark]
    simp only [hsweep]
  · rw [Heap.collect, show h'.markAll roots.candidates = _ from hmark']
    simp only [hsweep']
  · rw [countCollection, countCollection, hcounters]

end Settled

/-! ### Requests -/

section Award

variable {front back : List Nat} {size : Nat} {fit : Fit} {tag : Tag}
  (ha : Alike Nowhere h h' blocks) (hf : h.Fitting blocks size fit front back)

include ha hf

theorem fitting : h'.Fitting blocks size fit front back where
  free_eq := ha.freeOf_eq.trans hf.free_eq
  size_le := by
    rw [ha.sizeOf_eq hf.mem_free.1]
    exact hf.size_le
  front_lt := by
    intro b hb
    rw [ha.sizeOf_eq (hf.mem_free_of_mem_front hb).1]
    exact hf.front_lt b hb
  pred_eq := hf.pred_eq

theorem splits_iff : h'.Splits size fit ↔ h.Splits size fit := by
  rw [Splits, Splits, ha.sizeOf_eq hf.mem_free.1]

theorem grantOf_eq : h'.grantOf tag size fit = h.grantOf tag size fit := by
  simp only [grantOf, ha.splits_iff hf, ha.sizeOf_eq hf.mem_free.1]

variable (hpos : 1 ≤ size)

include hpos

/-- Handing out a block writes the same headers and bits in both heaps, so all that the two may
    differ in is the payload of that block. -/
theorem of_awarded {after : List Nat} (hleft : (h.awarded tag size fit).Ordered after)
    (hright : (h'.awarded tag size fit).Ordered after)
    (hmem : ∀ c ∈ after, c ∈ blocks ∨ h.Splits size fit ∧ c = restOf size fit) :
    Alike (fun j => fit.block ≤ j ∧ j < fit.block + (h.grantOf tag size fit).size)
      (h.awarded tag size fit) (h'.awarded tag size fit) after := by
  have hf' := ha.fitting hf
  refine ⟨hleft, hright, fun c hc => ?bit, fun c hc => ?header, fun c hc hset k hk hraw => ?word,
    ?counters⟩
  case bit =>
    have hin := (hleft.inHeap hc).hasBit
    rw [hf.bit_awarded ha.left hin, hf'.bit_awarded ha.right hin, ha.bit_eq_of_hasBit hin]
  case header =>
    by_cases hcb : c = fit.block
    · rw [hcb, hf.word_header ha.left hpos, hf'.word_header ha.right hpos, ha.grantOf_eq hf]
    · rcases hmem c hc with hc | ⟨hs, rfl⟩
      · rw [hf.word_header_of_ne ha.left hc hcb, hf'.word_header_of_ne ha.right hc hcb]
        exact ha.header_eq c hc
      · rw [hf.word_rest_header ha.left hs, hf'.word_rest_header ha.right
          ((ha.splits_iff hf).2 hs), ha.sizeOf_eq hf.mem_free.1]
  case word =>
    have hcb : c ≠ fit.block := by
      rintro rfl
      rw [ha.left.sizeOf_awarded hf hpos] at hk
      exact hraw ⟨by omega, by omega⟩
    rcases hmem c hc with hc | ⟨hs, rfl⟩
    · -- The words of the other allocated blocks are those from before.
      have hlow := (ha.left.bounds hc).1
      have hsize : (h.awarded tag size fit).sizeOf c = h.sizeOf c :=
        sizeOf_congr (hf.word_header_of_ne ha.left hc hcb)
      rw [hsize] at hk
      rw [ha.left.bit_awarded_of_ne hf hc hcb] at hset
      have hset' : h'.bit c = true := (ha.bit_eq c hc).trans hset
      rw [ha.left.word_awarded hf (.inr (by omega)) fun d hd =>
          ha.left.not_covers_free hc hset ⟨by omega, by omega⟩ hd,
        ha.right.word_awarded hf' (.inr (by omega)) fun d hd =>
          ha.right.not_covers_free hc hset' ⟨by omega, by rw [ha.sizeOf_eq hc]; omega⟩ hd]
      exact ha.word_eq c hc hset k hk not_false
    · rw [ha.left.bit_rest hf hs] at hset
      cases hset
  case counters => rw [Ordered.counters_awarded, Ordered.counters_awarded, ha.counters_eq]

/-- **Awards.** The same block is handed out, and the blocks are the same afterwards. -/
theorem award (tag : Tag) : ∃ after, fit.block ∈ after ∧
    Alike (fun j => fit.block ≤ j ∧ j < fit.block + (h.grantOf tag size fit).size)
      (h.awarded tag size fit) (h'.awarded tag size fit) after := by
  have hf' := ha.fitting hf
  by_cases hs : h.Splits size fit
  · have hs' := (ha.splits_iff hf).2 hs
    obtain ⟨xs, ys, hblocks, hxs, hys⟩ := hf.exists_around
    have hfree : ∀ zs : List Nat, (∀ c ∈ zs, c ∈ blocks) → h'.freeOf zs = h.freeOf zs :=
      fun zs hsub => freeOf_congr fun c hc => ha.bit_eq c (hsub c hc)
    have hxs' := (hfree xs fun c hc => by rw [hblocks]; simp [hc]).trans hxs
    have hys' := (hfree ys fun c hc => by rw [hblocks]; simp [hc]).trans hys
    refine ⟨_, ?_, ha.of_awarded hf hpos (ha.left.awarded_part hf hpos hs hblocks hxs hys)
      (ha.right.awarded_part hf' hpos hs' hblocks hxs' hys') fun c hc => ?_⟩
    · simp
    · rw [hblocks]
      simp only [List.mem_append, List.mem_cons] at *
      tauto
  · have hs' : ¬ h'.Splits size fit := fun hs' => hs ((ha.splits_iff hf).1 hs')
    exact ⟨blocks, hf.mem_free.1, ha.of_awarded hf hpos (ha.left.awarded_whole hf hpos hs)
      (ha.right.awarded_whole hf' hpos hs') fun c hc => .inl hc⟩

end Award

end Alike

/-- Two heaps that handed out the same block and are alike but for its payload, of which the first
    words were written. -/
structure Served (g : Grant) (written : Nat) (m m' : Heap L) : Prop where
  allocated : m.Allocated g.block
  sizeOf_eq : m.sizeOf g.block = g.size
  alike : ∃ after, Alike (fun j => g.block + written ≤ j ∧ j < g.block + g.size) m m' after

namespace Alike

section Requests

variable (ha : Alike Nowhere h h' blocks)

include ha

/-- **Requests.** Two heaps that are alike both refuse a request, or serve it with the same
    block. -/
theorem tryAllocate (tag : Tag) (size : Nat) :
    (HeapM.tryAllocate tag size h = (.ok none, h) ∧
      HeapM.tryAllocate tag size h' = (.ok none, h')) ∨
    ∃ g m m', HeapM.tryAllocate tag size h = (.ok (some g), m) ∧
      HeapM.tryAllocate tag size h' = (.ok (some g), m') ∧ Served g 0 m m' := by
  have hpos : 1 ≤ requestSize size := Nat.le_max_right ..
  have hsearch : h'.firstFit (requestSize size) none (h'.freeOf blocks) =
      h.firstFit (requestSize size) none (h.freeOf blocks) := by
    rw [ha.freeOf_eq]
    exact firstFit_congr fun b hb => ha.sizeOf_eq (mem_freeOf.1 hb).1
  cases hfit : h.firstFit (requestSize size) none (h.freeOf blocks) with
  | none =>
    exact .inl ⟨HeapM.tryAllocate_eq_none ha.left hfit,
      HeapM.tryAllocate_eq_none ha.right (hsearch.trans hfit)⟩
  | some fit =>
    obtain ⟨front, back, hf⟩ := Fitting.of_firstFit hfit
    have hgrant : h'.grantOf tag (requestSize size) fit = h.grantOf tag (requestSize size) fit :=
      ha.grantOf_eq hf
    have hrun' : HeapM.tryAllocate tag size h' =
        (.ok (some (h.grantOf tag (requestSize size) fit)),
          h'.awarded tag (requestSize size) fit) := by
      rw [HeapM.tryAllocate_eq_some ha.right (hsearch.trans hfit) (ha.fitting hf), hgrant]
    obtain ⟨after, hmem, halike⟩ := ha.award hf hpos tag
    refine .inr ⟨_, _, _, HeapM.tryAllocate_eq_some ha.left hfit hf, hrun',
      ⟨halike.left.inHeap hmem, ?_⟩, ?_, after, halike⟩
    · exact ha.left.bit_awarded_self hf
    · exact ha.left.sizeOf_awarded hf hpos

/-- The second attempt at a request. -/
theorem retry (tag : Tag) (size : Nat) :
    (∃ e m m' after, h.retry tag size = (.ok (.error e), m) ∧
      h'.retry tag size = (.ok (.error e), m') ∧ Alike Nowhere m m' after) ∨
    ∃ g m m', h.retry tag size = (.ok (.ok g), m) ∧ h'.retry tag size = (.ok (.ok g), m') ∧
      Served g 0 m m' := by
  rcases ha.tryAllocate tag size with ⟨hrun, hrun'⟩ | ⟨g, m, m', hrun, hrun', hserved⟩
  · have hcount : Alike Nowhere h.countFailure h'.countFailure blocks :=
      ha.of_words rfl rfl rfl rfl (by rw [countFailure, countFailure, ha.counters_eq])
    obtain ⟨u, husage⟩ := hcount.left.exists_usage
    have husage' := hcount.usage_eq.trans husage
    refine .inl ⟨.outOfMemory size u.freeWords, _, _, blocks, ?_, ?_, hcount⟩
    · rw [Heap.retry, hrun]
      simp only [husage]
    · rw [Heap.retry, hrun']
      simp only [husage']
  · exact .inr ⟨g, m, m', by rw [Heap.retry, hrun], by rw [Heap.retry, hrun'], hserved⟩

/-- **Requests that may collect.** Two heaps that are alike give the same account of them. -/
theorem allocate {roots : Roots} (hroots : roots.Regular L) (tag : Tag) (size : Nat) :
    (∃ c e m m' after, h.allocate tag size roots = (⟨c, .ok (.error e)⟩, m) ∧
      h'.allocate tag size roots = (⟨c, .ok (.error e)⟩, m') ∧ Alike Nowhere m m' after) ∨
    ∃ c g m m', h.allocate tag size roots = (⟨c, .ok (.ok g)⟩, m) ∧
      h'.allocate tag size roots = (⟨c, .ok (.ok g)⟩, m') ∧ Served g 0 m m' := by
  by_cases htag : tag = Tag.free
  · exact .inl ⟨none, .reservedTag tag, h, h', blocks, if_pos htag, if_pos htag, ha⟩
  rcases ha.tryAllocate tag size with ⟨hrun, hrun'⟩ | ⟨g, m, m', hrun, hrun', hserved⟩
  · obtain ⟨traces, r, m, m', mid, hcollect, hcollect', hm⟩ := ha.collect hroots
    have hleft : h.allocate tag size roots =
        (⟨some ⟨traces, .ok r⟩, (m.retry tag size).1⟩, (m.retry tag size).2) := by
      rw [Heap.allocate, if_neg htag, hrun]
      simp only [hcollect]
    have hright : h'.allocate tag size roots =
        (⟨some ⟨traces, .ok r⟩, (m'.retry tag size).1⟩, (m'.retry tag size).2) := by
      rw [Heap.allocate, if_neg htag, hrun']
      simp only [hcollect']
    rw [hleft, hright]
    rcases hm.retry tag size with ⟨e, k, k', after, hretry, hretry', halike⟩ |
      ⟨g, k, k', hretry, hretry', hserved⟩
    · exact .inl ⟨_, e, k, k', after, by rw [hretry], by rw [hretry'], halike⟩
    · exact .inr ⟨_, g, k, k', by rw [hretry], by rw [hretry'], hserved⟩
  · refine .inr ⟨none, g, m, m', ?_, ?_, hserved⟩
    · rw [Heap.allocate, if_neg htag, hrun]
    · rw [Heap.allocate, if_neg htag, hrun']

end Requests

/-! ### Stores -/

section Stores

variable (ha : Alike raw h h' blocks) (hb : h.Allocated b)

include ha hb

/-- A store writes the same word in both heaps, or none. -/
theorem store (k : Nat) (w : Word) :
    HeapM.store (.ofIndex b) k w h =
        (if k < h.sizeOf b then (.ok true, h.put (b + k) w) else (.ok false, h)) ∧
      HeapM.store (.ofIndex b) k w h' =
        if k < h.sizeOf b then (.ok true, h'.put (b + k) w) else (.ok false, h') := by
  have hsize := ha.sizeOf_eq (ha.left.allocated_iff.1 hb).1
  rw [ha.left.store_apply hb, ha.right.store_apply (ha.allocated_iff.2 hb), hsize]
  exact ⟨rfl, rfl⟩

/-- A word that was written is no longer stale. -/
theorem put_payload {k : Nat} (hk : k < h.sizeOf b) (w : Word) :
    Alike (fun j => raw j ∧ j ≠ b + k) (h.put (b + k) w) (h'.put (b + k) w) blocks := by
  obtain ⟨hmem, hset⟩ := ha.left.allocated_iff.1 hb
  have hbound := ha.left.bounds hmem
  have hlt : b + k < L.size := by
    rw [Layout.heapEnd] at hbound
    omega
  have hk' : k < h'.sizeOf b := by
    rw [ha.sizeOf_eq hmem]
    exact hk
  have hheader : ∀ c ∈ blocks, b + k ≠ c - 1 := by
    intro c hc
    have := ha.left.bounds hc
    by_cases hcb : b = c
    · omega
    · rcases ha.left.tiles.disjoint hmem hc hcb with hlt | hlt <;> omega
  have hbit : ∀ g : Heap L, ∀ c ∈ blocks, (g.put (b + k) w).bit c = g.bit c := fun g c hc =>
    g.bit_put_of_le (ha.left.inHeap hc).hasBit (by omega) w
  refine ⟨ha.left.put_payload hb hk w, ha.right.put_payload (ha.allocated_iff.2 hb) hk' w,
    fun c hc => ?bit, fun c hc => ?header, fun c hc hset l hl hraw => ?word, ha.counters_eq⟩
  case bit =>
    rw [hbit h c hc, hbit h' c hc]
    exact ha.bit_eq c hc
  case header =>
    rw [word_put_ne _ (hheader c hc), word_put_ne _ (hheader c hc)]
    exact ha.header_eq c hc
  case word =>
    rw [sizeOf_congr (h.word_put_ne (hheader c hc) w)] at hl
    rw [hbit h c hc] at hset
    by_cases hcl : b + k = c + l
    · rw [← hcl, word_put_self _ hlt, word_put_self _ hlt]
    · rw [word_put_ne _ hcl, word_put_ne _ hcl]
      exact ha.word_eq c hc hset l hl fun hr => hraw ⟨hr, Ne.symm hcl⟩

end Stores

end Alike

end Heap

end ArenaHeap
