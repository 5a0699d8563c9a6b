import ArenaHeap.History
import ArenaHeap.Proofs.Marking
import ArenaHeap.Proofs.Sweep.Run
import ArenaHeap.Proofs.Usage

namespace ArenaHeap

/-!
# What a collection leaves

Marking and sweeping together. A sweep spares the blocks whose bit was cleared and that are not
tagged as free; on a heap in order marking clears the bits of the reachable blocks, so those are
the reachable ones.

* `Heap.Reduced` — a heap in order of which some blocks were kept and all others made free space.
* `Heap.Ordered.reduced` — what a sweep makes of a heap in order of which some allocated blocks had
  their bit cleared.
* `Heap.Survives` — the blocks that a collection keeps.
* `Heap.Ordered.collect` — a collection of a heap in order completes, and `Heap.Collected` is what
  it leaves: a heap in order whose allocated blocks are the survivors.
-/

variable {L : Layout}

namespace Heap

/-! ### A heap reduced to some of its blocks -/

/-- A heap `h` with blocks `blocks`, reduced to those in `keep`: the heap `h'` with blocks
    `after`. -/
structure Reduced (h : Heap L) (keep : Nat → Prop) (blocks : List Nat) (h' : Heap L)
    (after : List Nat) : Prop where
  ordered : h'.Ordered after
  /-- All blocks were blocks before. -/
  mem_before : ∀ b ∈ after, b ∈ blocks
  bit_iff : ∀ b, L.HasBit b → (h'.bit b = true ↔ keep b)
  /-- The blocks that stay keep header and payload. -/
  kept : ∀ b, keep b → ∀ j, h.Covers b j → h'.word j = h.word j
  /-- All other blocks lie inside free ones. -/
  inside : ∀ b ∈ blocks, ¬ keep b →
    ∃ f ∈ after, h'.bit f = false ∧ f ≤ b ∧ b + h.sizeOf b ≤ f + h'.sizeOf f
  reserved : ∀ j, j < L.reserved → h'.word j = h.word j

variable {h h' : Heap L} {keep : Nat → Prop} {blocks after : List Nat} {b : Nat}

namespace Reduced

theorem header_eq (hr : Reduced h keep blocks h' after) (hb : keep b) (hpos : 0 < b) :
    h'.word (b - 1) = h.word (b - 1) :=
  hr.kept b hb _ ⟨by omega, by omega⟩

/-- A block that stays keeps its size, its tag and its payload. -/
theorem views_eq (hr : Reduced h keep blocks h' after) (hb : keep b) (hpos : 0 < b) :
    h'.sizeOf b = h.sizeOf b ∧ h'.tagOf b = h.tagOf b ∧ h'.payloadOf b = h.payloadOf b := by
  have hheader := hr.header_eq hb hpos
  refine ⟨sizeOf_congr hheader, tagOf_congr hheader, ?_⟩
  refine payloadOf_congr (sizeOf_congr hheader) fun k hk => ?_
  exact hr.kept b hb _ ⟨by omega, by omega⟩

/-- Counting changes no word. -/
theorem of_words (hr : Reduced h keep blocks h' after) {h'' : Heap L}
    (hwords : h''.words = h'.words) (hheads : h''.heads = h'.heads) :
    Reduced h keep blocks h'' after := by
  have hword := word_of_words hwords
  have hbit : ∀ i, h''.bit i = h'.bit i := fun i => bit_congr (hword _)
  have hsize : ∀ f, h''.sizeOf f = h'.sizeOf f := fun f => sizeOf_congr (hword _)
  refine ⟨hr.ordered.of_words hwords hheads,
    hr.mem_before, fun i hi => by rw [hbit i]; exact hr.bit_iff i hi,
    fun i hi j hj => (hword j).trans (hr.kept i hi j hj), fun i hi hb => ?_,
    fun j hj => (hword j).trans (hr.reserved j hj)⟩
  obtain ⟨f, hf, hclear, hle, hend⟩ := hr.inside i hi hb
  exact ⟨f, hf, by rw [hbit f]; exact hclear, hle, by rw [hsize f]; exact hend⟩

end Reduced

section Sweep

variable {visited : List Nat} (ho : h.Ordered blocks) (hvis : ∀ c ∈ visited, h.Allocated c)

include ho hvis

/-- Once the bits of some allocated blocks were cleared, a sweep spares those of them that are not
    tagged as free. -/
theorem Ordered.spared_iff (hb : b ∈ blocks) :
    (h.clearBits visited).Spared b ↔ b ∈ visited ∧ h.tagOf b ≠ Tag.free := by
  have hin : ∀ c ∈ visited, L.InHeap c := fun c hc => (hvis c hc).1
  have hlow := (ho.bounds hb).1
  have htag : (h.clearBits visited).tagOf b = h.tagOf b :=
    tagOf_congr (word_clearBits hin (.inr (by omega)))
  rw [Spared, htag, bit_clearBits hin (Nat.le_of_lt hlow)]
  constructor
  · rintro ⟨hbit, hne⟩
    refine ⟨?_, hne⟩
    -- If it was not visited, its bit was clear before, and then it has the tag of free blocks.
    by_contra hout
    refine hne (ho.tagOf_free b hb ?_)
    simpa [hout] using hbit
  · rintro ⟨hmem, hne⟩
    exact ⟨by simp [hmem], hne⟩

/-- The bits that a sweep sets are those of the blocks that it spares. -/
theorem Ordered.bit_rebuilt {r : SweepReport} (hr : Rebuilt (h.clearBits visited) blocks h' after r)
    {i : Nat} (hi : L.HasBit i) :
    h'.bit i = true ↔ i ∈ visited ∧ h.tagOf i ≠ Tag.free := by
  have hin : ∀ c ∈ visited, L.InHeap c := fun c hc => (hvis c hc).1
  rw [hr.gathered.bit i hi]
  by_cases hmem : i ∈ blocks
  · rw [if_pos hmem, decide_eq_true_iff, ho.spared_iff hvis hmem]
  · -- No bit is set off the blocks, before marking or after it.
    rw [if_neg hmem, bit_clearBits hin hi.1, Bool.and_eq_true]
    constructor
    · rintro ⟨hset, _⟩
      exact absurd (ho.mem_of_bit i hi hset) hmem
    · exact fun hs => absurd (ho.allocated_iff.1 (hvis i hs.1)).1 hmem

/-- The bits of all other blocks that are left are clear. -/
theorem Ordered.clear_rebuilt {r : SweepReport}
    (hr : Rebuilt (h.clearBits visited) blocks h' after r) {f : Nat} (hf : f ∈ after) :
    h'.bit f = false ↔ ¬ (h.clearBits visited).Spared f := by
  have hmem := hr.gathered.mem_before f hf
  rw [ho.spared_iff hvis hmem, ← ho.bit_rebuilt hvis hr (ho.inHeap hmem).hasBit, Bool.not_eq_true]

/-- So the free blocks that a sweep links are those whose bit is clear afterwards. -/
theorem Ordered.freeOf_rebuilt {r : SweepReport}
    (hr : Rebuilt (h.clearBits visited) blocks h' after r) :
    h'.freeOf after = (h.clearBits visited).spacesOf after := by
  refine List.filter_congr fun f hf => ?_
  rw [Bool.eq_iff_iff, Bool.not_eq_true', ho.clear_rebuilt hvis hr hf, Bool.not_eq_true',
    decide_eq_false_iff_not]

/-- **Sweeping.** A sweep reduces a heap in order, of which some allocated blocks were visited, to
    those of them that are not tagged as free. -/
theorem Ordered.reduced {r : SweepReport} (hr : Rebuilt (h.clearBits visited) blocks h' after r) :
    Reduced h (fun c => c ∈ visited ∧ h.tagOf c ≠ Tag.free) blocks h' after := by
  have hin : ∀ c ∈ visited, L.InHeap c := fun c hc => (hvis c hc).1
  have hg := hr.gathered
  have hbefore := hg.mem_before
  have hspared : ∀ c ∈ blocks, ((h.clearBits visited).Spared c ↔
      c ∈ visited ∧ h.tagOf c ≠ Tag.free) := fun c hc => ho.spared_iff hvis hc
  have hblock : ∀ c ∈ visited, c ∈ blocks := fun c hc => (ho.allocated_iff.1 (hvis c hc)).1
  have hbit : ∀ i, L.HasBit i →
      (h'.bit i = true ↔ i ∈ visited ∧ h.tagOf i ≠ Tag.free) :=
    fun i hi => ho.bit_rebuilt hvis hr hi
  have hclear : ∀ f ∈ after, (h'.bit f = false ↔ ¬ (h.clearBits visited).Spared f) :=
    fun f hf => ho.clear_rebuilt hvis hr hf
  have hword : ∀ j, j < L.reserved ∨ L.heapStart ≤ j → (h.clearBits visited).word j = h.word j :=
    fun j hj => word_clearBits hin hj
  refine ⟨⟨hg.tiles, ?mem_of_bit, ?tagOf_free, ?links, ?apart, fun n hn => ?heads_null⟩,
    hbefore, hbit, ?kept, ?inside, ?reserved⟩
  case mem_of_bit =>
    intro i hi hset
    have hs := (hbit i hi).1 hset
    exact hg.mem_done i (hblock i hs.1) ((hspared i (hblock i hs.1)).2 hs)
  case tagOf_free =>
    exact fun f hf hfree => hg.tag f hf ((hclear f hf).1 hfree)
  case links =>
    rw [ho.freeOf_rebuilt hvis hr]
    exact hr.links
  case apart =>
    intro c hc d hd hnext
    have hset : ∀ f ∈ after, (h.clearBits visited).Spared f → h'.bit f = true := by
      intro f hf hs
      by_contra hnot
      exact (hclear f hf).1 (by simpa using hnot) hs
    exact (hr.apart c hc d hd hnext).imp (hset c hc) (hset d hd)
  case heads_null =>
    rw [hr.heads n hn, heads_clearBits]
    exact ho.heads_null n hn
  case kept =>
    intro c hs j hj
    have hmem := hblock c hs.1
    have hlow := (ho.bounds hmem).1
    have hcover : (h.clearBits visited).Covers c j := by
      rw [Covers, sizeOf_clearBits hin hlow]
      exact hj
    rw [hg.kept c hmem ((hspared c hmem).2 hs) j hcover]
    obtain ⟨hj₁, _⟩ := hj
    exact hword j (.inr (by omega))
  case inside =>
    intro c hc hs
    obtain ⟨f, hf, hff, hfc, hcf⟩ := hg.inside c hc fun hsp => hs ((hspared c hc).1 hsp)
    rw [sizeOf_clearBits hin (ho.bounds hc).1] at hcf
    exact ⟨f, hf, (hclear f hf).2 hff, hfc, hcf⟩
  case reserved =>
    intro j hj
    rw [hg.reserved j hj]
    exact hword j (.inl hj)

end Sweep

/-! ### A collection -/

/-- A block that a collection keeps: it is reachable from the slots that are set
    (`reachable_iff_slot`), and its tag is not that of free blocks. -/
def Survives (h : Heap L) (roots : Roots) (b : Nat) : Prop :=
  h.Reachable roots.candidates b ∧ h.tagOf b ≠ Tag.free

/-- What a collection makes of a heap `h` with blocks `blocks`: the heap `h'` with blocks `after`,
    reduced to the survivors. -/
abbrev Collected (h : Heap L) (roots : Roots) (blocks : List Nat) (h' : Heap L)
    (after : List Nat) : Prop :=
  Reduced h (h.Survives roots) blocks h' after

variable {roots : Roots}

namespace Collected

theorem allocated_iff (hc : Collected h roots blocks h' after) :
    h'.Allocated b ↔ h.Survives roots b := by
  constructor
  · rintro ⟨hin, hbit⟩
    exact (hc.bit_iff b hin.hasBit).1 hbit
  · intro hs
    have hin := hs.1.allocated.1
    exact ⟨hin, (hc.bit_iff b hin.hasBit).2 hs⟩

/-- A survivor keeps its size, its tag and its payload. -/
theorem views_eq (hc : Collected h roots blocks h' after) (hs : h.Survives roots b) :
    h'.sizeOf b = h.sizeOf b ∧ h'.tagOf b = h.tagOf b ∧ h'.payloadOf b = h.payloadOf b :=
  Reduced.views_eq hc hs (Nat.lt_of_lt_of_le L.heapStart_pos hs.1.allocated.1.1)

/-- No survivor has the tag of free blocks. -/
theorem tagged (hc : Collected h roots blocks h' after) : h'.Tagged := by
  intro b hb
  have hs := hc.allocated_iff.1 hb
  rw [(hc.views_eq hs).2.1]
  exact hs.2

end Collected

/-- A collection that meets no fault marks, sweeps and counts. -/
theorem collect_of_marked {traces : List RootTrace} {r : SweepReport} {m g : Heap L}
    (hmark : h.markAll roots.candidates = (traces, .ok (), m))
    (hsweep : HeapM.sweep m = (.ok r, g)) :
    h.collect roots = (⟨traces, .ok r⟩,
      g.countCollection (traces.foldr (fun t n => t.marked + n) 0) r.reclaimed) := by
  rw [Heap.collect, hmark]
  simp only [hsweep]
  rfl

/-- The blocks of a heap in order still tile it once some of them were visited. -/
theorem Ordered.tiles_clearBits (ho : h.Ordered blocks) {visited : List Nat}
    (hin : ∀ c ∈ visited, L.InHeap c) :
    (h.clearBits visited).TilesTo L.heapStart blocks L.heapEnd :=
  ho.tiles.congr fun _ hc => sizeOf_clearBits hin (ho.bounds hc).1

/-- **Marking and sweeping.** From roots that it can read, a collection of a heap in order meets no
    fault: it visits each reachable block once, and then sweeps. -/
theorem Ordered.collect_rebuilt (ho : h.Ordered blocks) (hroots : roots.Regular L) :
    ∃ (traces : List RootTrace) (r : SweepReport) (g : Heap L) (after visited : List Nat),
      h.collect roots = (⟨traces, .ok r⟩, g.countCollection visited.length r.reclaimed) ∧
      Rebuilt (h.clearBits visited) blocks g after r ∧
      traces.foldr (fun t n => t.marked + n) 0 = visited.length ∧ visited.Nodup ∧
      ∀ b, b ∈ visited ↔ h.Reachable roots.candidates b := by
  obtain ⟨visited, traces, hmark, hsum, hnodup, hvis⟩ := markAll_eq ho.contained hroots
  have hin : ∀ c ∈ visited, L.InHeap c := fun c hc => ((hvis c).1 hc).allocated.1
  obtain ⟨g, after, r, hsweep, hr⟩ := HeapM.sweep_apply (ho.tiles_clearBits hin)
  refine ⟨traces, r, g, after, visited, ?_, hr, hsum, hnodup, hvis⟩
  rw [← hsum]
  exact collect_of_marked hmark hsweep

/-- Sweeping a heap whose reachable blocks were visited is what is left of a collection to do. -/
theorem Ordered.rebuilt (ho : h.Ordered blocks) {visited : List Nat}
    (hvis : ∀ c, c ∈ visited ↔ h.Reachable roots.candidates c) {r : SweepReport}
    (hr : Rebuilt (h.clearBits visited) blocks h' after r) :
    Collected h roots blocks h' after := by
  have hreduced := ho.reduced (fun c hc => ((hvis c).1 hc).allocated) hr
  have hkeep : (fun c => c ∈ visited ∧ h.tagOf c ≠ Tag.free) = h.Survives roots :=
    funext fun c => propext (and_congr_left' (hvis c))
  rwa [hkeep] at hreduced

/-- **A collection completes.** From roots that it can read, a collection of a heap in order meets
    no fault, visits each reachable block once, and keeps the survivors. -/
theorem Ordered.collect (ho : h.Ordered blocks) (hroots : roots.Regular L) :
    ∃ (traces : List RootTrace) (r : SweepReport) (h' : Heap L) (after visited : List Nat),
      h.collect roots = (⟨traces, .ok r⟩, h') ∧ Collected h roots blocks h' after ∧
      traces.foldr (fun t n => t.marked + n) 0 = visited.length ∧ visited.Nodup ∧
      ∀ b, b ∈ visited ↔ h.Reachable roots.candidates b := by
  obtain ⟨traces, r, g, after, visited, hrun, hr, hsum, hnodup, hvis⟩ := ho.collect_rebuilt hroots
  exact ⟨traces, r, _, after, visited, hrun, (ho.rebuilt hvis hr).of_words rfl rfl, hsum, hnodup,
    hvis⟩

end Heap

end ArenaHeap
