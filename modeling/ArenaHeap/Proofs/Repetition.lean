import ArenaHeap.Proofs.Equality
import ArenaHeap.Proofs.Ownership
import ArenaHeap.Proofs.Representation

namespace ArenaHeap

/-!
# A second collection changes nothing

A collection leaves a heap whose allocated blocks are all reachable, so a second one from the same
roots visits just those. The sweep that follows then sets their bits again and finds every free
block with the header and the link that it is about to write. So all words come out as they were,
even those inside free blocks that mean nothing.

* `Heap.Ordered.sweep_marked` — a sweep undoes the marking of all allocated blocks.
* `Heap.ReachedTagged.tagged` — no allocated block has the tag of free blocks where no request asks
  for it.
* `Heap.ReachedTagged.collect_again` — the law for two collections in a row.
-/

variable {L : Layout}

namespace Heap

variable {h h' m : Heap L} {blocks mid before ahead : List Nat} {b : Nat}

/-! ### A sweep of a marked heap -/

section Marked

variable (ho : h.Ordered blocks) (htag : h.Tagged)

include ho

theorem Ordered.inHeap_of_mem_usedOf (hsub : ∀ c ∈ ahead, c ∈ blocks) :
    ∀ c ∈ h.usedOf ahead, L.InHeap c :=
  fun _ hc => ho.inHeap (hsub _ (mem_usedOf.1 hc).1)

omit ho in
/-- A free block has the header of a free block already. -/
theorem released_self (hin : L.InHeap b) (hclear : h.bit b = false)
    (hfree : h.tagOf b = Tag.free) : h.released b (h.sizeOf b) = h := by
  rw [released, clearBit_self hin hclear, ← hfree]
  exact h.putHeader_self b

include htag

/-- An allocated block that was visited gets its bit back. -/
theorem Ordered.sweepBlock_used (hblocks : blocks = before ++ b :: ahead)
    (hset : h.bit b = true) (last : Option Nat) (r : SweepReport) :
    HeapM.sweepBlock b (h.sizeOf b) last r (h.clearBits (h.usedOf (b :: ahead))) =
      (.ok (last, r.survived), h.clearBits (h.usedOf ahead)) := by
  have hsub : ∀ c ∈ b :: ahead, c ∈ blocks := fun c hc => by
    rw [hblocks]
    exact List.mem_append_right _ hc
  have hmem := hsub b (List.mem_cons_self ..)
  have hlow := (ho.bounds hmem).1
  have hin := ho.inHeap_of_mem_usedOf hsub
  have hcons : h.usedOf (b :: ahead) = b :: h.usedOf ahead := List.filter_cons_of_pos hset
  have hnew : b ∉ h.usedOf ahead := by
    intro hb
    have hnodup := ho.tiles.nodup
    rw [hblocks] at hnodup
    exact (List.nodup_cons.1 (List.nodup_append.1 hnodup).2.1).1 (mem_usedOf.1 hb).1
  have hspared : (h.clearBits (h.usedOf (b :: ahead))).Spared b := by
    refine ⟨?_, ?_⟩
    · rw [bit_clearBits hin (Nat.le_of_lt hlow), hcons]
      simp
    · rw [tagOf_congr (word_clearBits hin (.inr (by omega)))]
      exact htag b ⟨ho.inHeap hmem, hset⟩
  rw [HeapM.sweepBlock_spare (ho.inHeap hmem) hlow hspared, hcons]
  rw [setBit_clearBits_cons (fun c hc => hin c (by rw [hcons]; exact List.mem_cons_of_mem _ hc))
    (ho.inHeap hmem) hset hnew]

omit htag in
/-- A free block has the header and the link that the sweep writes. -/
theorem Ordered.sweepBlock_free (hblocks : blocks = before ++ b :: ahead)
    (hclear : h.bit b = false) (r : SweepReport) :
    ∃ r', HeapM.sweepBlock b (h.sizeOf b) (h.freeOf before).getLast? r
        (h.clearBits (h.usedOf (b :: ahead))) =
      (.ok (some b, r'), h.clearBits (h.usedOf ahead)) := by
  have hsub : ∀ c ∈ ahead, c ∈ blocks := fun c hc => by
    rw [hblocks]
    exact List.mem_append_right _ (List.mem_cons_of_mem _ hc)
  have hmem : b ∈ blocks := by
    rw [hblocks]
    simp
  have hlow := (ho.bounds hmem).1
  have hbin := ho.inHeap hmem
  have hin := ho.inHeap_of_mem_usedOf hsub
  have hcons : h.usedOf (b :: ahead) = h.usedOf ahead :=
    List.filter_cons_of_neg (by simp [hclear])
  rw [hcons]
  have hword : ∀ j, L.heapStart ≤ j → (h.clearBits (h.usedOf ahead)).word j = h.word j :=
    fun j hj => word_clearBits hin (.inr hj)
  have hfree := ho.tagOf_free b hmem hclear
  have hview : ∀ c ∈ blocks, (h.clearBits (h.usedOf ahead)).sizeOf c = h.sizeOf c := by
    intro c hc
    exact sizeOf_clearBits hin (ho.bounds hc).1
  have hself : (h.clearBits (h.usedOf ahead)).released b (h.sizeOf b) =
      h.clearBits (h.usedOf ahead) := by
    rw [← hview b hmem]
    refine released_self hbin ?_ ?_
    · rw [bit_clearBits hin (Nat.le_of_lt hlow), hclear, Bool.false_and]
    · rw [tagOf_congr (hword _ (by omega))]
      exact hfree
  have hfront : ∀ f ∈ h.freeOf before, f ∈ h.freeOf blocks := by
    intro f hf
    obtain ⟨hfmem, hfclear⟩ := mem_freeOf.1 hf
    exact mem_freeOf.2 ⟨by rw [hblocks]; exact List.mem_append_left _ hfmem, hfclear⟩
  -- The path from the head leads through the free blocks in front to this one.
  have hpath : (h.clearBits (h.usedOf ahead)).Links
      ((h.clearBits (h.usedOf ahead)).heads.get commonList) (h.freeOf before)
      (VAddr.ofIndex b) := by
    have hlinks := ho.links
    rw [hblocks, freeOf, List.filter_append, List.filter_cons_of_pos (by simp [hclear])] at hlinks
    obtain ⟨middle, hl, hmiddle, _⟩ := links_append_iff.1 hlinks
    rw [hmiddle] at hl
    rw [heads_clearBits]
    refine hl.congr fun f hf => hword f ?_
    exact Nat.le_of_lt (ho.bounds (mem_freeOf.1 (hfront f hf)).1).1
  have hspared : ¬ (h.clearBits (h.usedOf ahead)).Spared b := by
    rintro ⟨_, hne⟩
    rw [tagOf_congr (hword _ (by omega))] at hne
    exact hne hfree
  have hapart : ∀ f ∈ (h.freeOf before).getLast?, 0 < f ∧ f < L.size ∧
      f + ((h.clearBits (h.usedOf ahead)).released b (h.sizeOf b)).sizeOf f + Header.words ≠ b := by
    intro f hf
    have hffree := hfront f (List.mem_of_getLast? hf)
    have hfmem := (mem_freeOf.1 hffree).1
    have hpos := (ho.bounds hfmem).1
    rw [hself, hview f hfmem]
    refine ⟨by omega, (ho.inHeap hfmem).lt_size, fun htouch => ?_⟩
    exact ho.not_touching hffree (mem_freeOf.2 ⟨hmem, hclear⟩) htouch.symm
  have hrelease : HeapM.release b (h.sizeOf b) (h.freeOf before).getLast?
      (if (h.clearBits (h.usedOf ahead)).tagOf b = Tag.free then r else r.reclaim)
      (h.clearBits (h.usedOf ahead)) = _ := HeapM.release_separate hbin hlow hapart
  rw [hself, hpath.relinked_self] at hrelease
  exact ⟨_, (HeapM.sweepBlock_release hbin hlow hspared).trans hrelease⟩

/-- The blocks ahead of the sweep are marked, those behind it are as they were. -/
theorem Ordered.sweepFrom_marked (hblocks : blocks = before ++ ahead) {stop : Nat}
    (ht : h.TilesTo stop ahead L.heapEnd) (r : SweepReport) :
    ∃ r', HeapM.sweepFrom (stop + Header.words) (h.freeOf before).getLast? r
        (h.clearBits (h.usedOf ahead)) = (.ok ((h.freeOf blocks).getLast?, r'), h) := by
  induction ahead generalizing before stop r with
  | nil =>
    have hstop : stop = L.heapEnd := ht
    rw [List.append_nil] at hblocks
    refine ⟨r, ?_⟩
    rw [HeapM.sweepFrom, if_neg (by omega), hblocks]
    rfl
  | cons b bs ih =>
    have hmem : b ∈ blocks := by
      rw [hblocks]
      simp
    have hbounds := ho.bounds hmem
    obtain ⟨hb, _, hrest⟩ := ht
    have hcut : blocks = (before ++ [b]) ++ bs := by rw [hblocks, List.append_assoc]; rfl
    have hstep : ∃ r₁, HeapM.sweepBlock b (h.sizeOf b) (h.freeOf before).getLast? r
        (h.clearBits (h.usedOf (b :: bs))) =
        (.ok ((h.freeOf (before ++ [b])).getLast?, r₁), h.clearBits (h.usedOf bs)) := by
      have happend : h.freeOf (before ++ [b]) = h.freeOf before ++ h.freeOf [b] :=
        List.filter_append ..
      cases hbit : h.bit b with
      | true =>
        have hnone : h.freeOf [b] = [] := by simp [freeOf, hbit]
        rw [happend, hnone, List.append_nil]
        exact ⟨r.survived, ho.sweepBlock_used htag hblocks hbit _ r⟩
      | false =>
        have hone : h.freeOf [b] = [b] := by simp [freeOf, hbit]
        rw [happend, hone, List.getLast?_concat]
        exact ho.sweepBlock_free hblocks hbit r
    obtain ⟨r₁, hrun⟩ := hstep
    obtain ⟨r', hrun'⟩ := ih hcut hrest r₁
    refine ⟨r', ?_⟩
    have hsub : ∀ c ∈ b :: bs, c ∈ blocks := fun c hc => by
      rw [hblocks]
      exact List.mem_append_right _ hc
    have hread : HeapM.ask (·.sizeAt b) (h.clearBits (h.usedOf (b :: bs))) =
        (.ok (h.sizeOf b), h.clearBits (h.usedOf (b :: bs))) := by
      rw [← sizeOf_clearBits (ho.inHeap_of_mem_usedOf hsub) hbounds.1]
      exact HeapM.ask_eq_ok
        (sizeAt_eq_ok _ (by omega) (Nat.le_of_lt (ho.inHeap hmem).lt_size))
    rw [HeapM.sweepFrom, ← hb, if_pos (ho.inHeap hmem).2, HeapM.bind_apply hread,
      HeapM.bind_apply hrun]
    exact hrun'

/-- **A sweep undoes marking.** Once all allocated blocks were visited, a sweep brings back the heap
    as it was before, word by word. -/
theorem Ordered.sweep_marked :
    ∃ r, HeapM.sweep (h.clearBits (h.usedOf blocks)) = (.ok r, h) := by
  obtain ⟨r, hrun⟩ := ho.sweepFrom_marked htag (List.nil_append blocks).symm ho.tiles {}
  have hrun' : HeapM.sweepFrom (L.heapStart + Header.words) none {}
      (h.clearBits (h.usedOf blocks)) = (.ok ((h.freeOf blocks).getLast?, r), h) := hrun
  refine ⟨r, ?_⟩
  have hlast : ∀ f ∈ (h.freeOf blocks).getLast?, f < L.size := fun f hf =>
    (ho.inHeap_of_mem_freeOf f (List.mem_of_getLast? hf)).lt_size
  show (HeapM.sweepFrom (L.heapStart + Header.words) none {} >>= fun _ => _) _ = _
  rw [HeapM.bind_apply hrun']
  refine (HeapM.bind_apply (HeapM.relink_apply _ hlast _)).trans ?_
  rw [ho.links.relinked_self]
  rfl

end Marked

/-! ### After a collection all is reachable -/

namespace Collected

variable {roots : Roots}

/-- What was reachable before a collection still is. -/
theorem reachable (hc : Collected h roots blocks m mid) (htag : h.Tagged)
    (hr : h.Reachable roots.candidates b) : m.Reachable roots.candidates b := by
  have hsurvives : ∀ {c}, h.Reachable roots.candidates c → h.Survives roots c :=
    fun hc => ⟨hc, htag _ hc.allocated⟩
  induction hr with
  | candidate ha hv =>
    exact .candidate (hc.allocated_iff.2 (hsurvives (.candidate ha hv))) hv
  | word hr ha hv ih =>
    refine .word ih (hc.allocated_iff.2 (hsurvives (.word hr ha hv))) ?_
    rw [(hc.views_eq (hsurvives hr)).2.2]
    exact hv

end Collected

/-! ### Tags -/

end Heap

/-- A step that asks for no block tagged as free. -/
def Step.Tagged : Step → Prop
  | tryAllocate tag _ => tag ≠ Tag.free
  | allocate tag _ _ => tag ≠ Tag.free
  | collect _ => True
  | store _ _ _ => True
  | storeReserved _ _ => True

instance : DecidablePred Step.Tagged
  | .tryAllocate tag _ => inferInstanceAs (Decidable (tag ≠ Tag.free))
  | .allocate tag _ _ => inferInstanceAs (Decidable (tag ≠ Tag.free))
  | .collect _ => isTrue trivial
  | .store _ _ _ => isTrue trivial
  | .storeReserved _ _ => isTrue trivial

/-- The states of a heap in regular use in which no block was asked for with the tag of free
    blocks. -/
inductive Heap.ReachedTagged : Heap L → Prop
  | placed {a : Arena} {start : Pointer} {h : Heap L} :
      a.intoHeap start = .ok ⟨L, h⟩ → Heap.ReachedTagged h
  | step {h : Heap L} {s : Step} : Heap.ReachedTagged h → s.Regular h → s.Tagged →
      Heap.ReachedTagged (s.apply h)

namespace Heap

variable {h h' m : Heap L} {blocks mid : List Nat} {s : Step} {g : Grant} {roots : Roots}

theorem ReachedTagged.reached (hr : h.ReachedTagged) : h.Reached := by
  induction hr with
  | placed ha => exact .placed ha
  | step _ hs _ ih => exact .step ih hs

/-- The block handed out has the tag that was asked for. -/
theorem Ordered.tag_of_granted (ho : h.Ordered blocks) (hs : s.Regular h) (ht : s.Tagged)
    (hg : s.granted h = some g) : g.tag ≠ Tag.free := by
  cases s with
  | tryAllocate tag size =>
    rcases ho.tryAllocate_cases tag size with ⟨hrun, _⟩ | ⟨g', h', after, hrun, hgranted⟩
    · rw [Step.granted, hrun] at hg
      cases hg
    · rw [Step.granted, hrun] at hg
      cases hg
      rw [hgranted.tag_eq]
      exact ht
  | allocate tag size roots =>
    rcases ho.allocate_cases hs ht size with ⟨g', h', after, hrun, hgranted⟩ |
      ⟨_, _, _, _, _, _, _, ⟨hrun, _⟩ | ⟨g', h', after, hrun, hgranted⟩⟩
    · rw [Step.granted, hrun] at hg
      cases hg
      rw [hgranted.tag_eq]
      exact ht
    · rw [Step.granted, hrun] at hg
      cases hg
    · rw [Step.granted, hrun] at hg
      cases hg
      rw [hgranted.tag_eq]
      exact ht
  | collect _ => cases hg
  | store _ _ _ => cases hg
  | storeReserved _ _ => cases hg

theorem Settled.tagged {roots : Option Roots} (hm : Settled h blocks roots m mid)
    (ht : h.Tagged) : m.Tagged := by
  cases roots with
  | none =>
    obtain ⟨rfl, rfl⟩ := hm
    exact ht
  | some r =>
    have hc : Collected h r blocks m mid := hm
    exact hc.tagged

/-- A step keeps the tags of the allocated blocks, and a new block gets the tag asked for. -/
theorem Ordered.tagged_step (ho : h.Ordered blocks) (hs : s.Regular h) (hst : s.Tagged)
    (ht : h.Tagged) : (s.apply h).Tagged := by
  intro b hb
  cases ho.stepped hs with
  | @granted m mid _ _ _ g hm hg hgranted =>
    have hbit := hgranted.bit_eq b hb.1.hasBit
    rw [hb.2] at hbit
    by_cases hgb : g.block = b
    · rw [← hgb, hgranted.tagOf_eq]
      exact ho.tag_of_granted hs hst hg
    · have hmb : m.Allocated b := ⟨hb.1, by simpa [hgb] using hbit.symm⟩
      have howned : m.Owned b (m.tagOf b) (m.sizeOf b) := ⟨hmb, rfl, rfl⟩
      rw [(howned.granted (hm.ordered ho) hgranted).1.tagOf_eq]
      exact hm.tagged ht b hmb
  | @kept m mid hm _ hkept =>
    have hmb : m.Allocated b := ⟨hb.1, by rw [← hkept.bit_eq hb.1.hasBit]; exact hb.2⟩
    have howned : m.Owned b (m.tagOf b) (m.sizeOf b) := ⟨hmb, rfl, rfl⟩
    rw [(howned.kept (hm.ordered ho) hkept).1.tagOf_eq]
    exact hm.tagged ht b hmb

theorem ReachedTagged.tagged (hr : h.ReachedTagged) : h.Tagged := by
  induction hr with
  | placed ha =>
    obtain ⟨words, rfl⟩ := eq_fresh_of_intoHeap ha
    intro b hb
    have hclear := bit_fresh L words hb.1.hasBit
    rw [hb.2] at hclear
    cases hclear
  | step hr hs hst ih =>
    obtain ⟨blocks, ho⟩ := hr.reached.ordered
    exact ho.tagged_step hs hst ih

/-! ### Two collections in a row -/

/-- A second collection, with account `second` and result `h'`, after one with account `first` that
    left `m`: it finds the same blocks and changes nothing but two counters. -/
structure Idle (first : Collection) (m : Heap L) (second : Collection) (h' : Heap L) : Prop where
  /-- Both complete, and the reports differ in the blocks taken back. -/
  outcomes : ∃ r, first.outcome = .ok r ∧ second.outcome = .ok { r with reclaimed := 0 }
  marked_eq : second.marked = first.marked
  words_eq : h'.words = m.words
  heads_eq : h'.heads = m.heads
  counters_eq : h'.counters = { m.counters with
    collections := m.counters.collections + 1
    marked := m.counters.marked + first.marked }

/-- The survivors that a sweep counts are the blocks visited. -/
theorem Counted.live_eq {g : Heap L} {after visited : List Nat} {r : SweepReport}
    (hc : Counted (h.clearBits visited) blocks g after r) (ho : h.Ordered blocks)
    (htag : h.Tagged) (hvis : ∀ b ∈ visited, h.Allocated b) (hnodup : visited.Nodup) :
    r.live = visited.length := by
  rw [hc.live, List.countP_eq_length_filter]
  refine List.Perm.length_eq ((List.perm_ext_iff_of_nodup (ho.tiles.nodup.filter _) hnodup).2 ?_)
  intro b
  rw [List.mem_filter, decide_eq_true_iff]
  constructor
  · rintro ⟨hb, hs⟩
    exact ((ho.spared_iff hvis hb).1 hs).1
  · intro hb
    have hmem := (ho.allocated_iff.1 (hvis b hb)).1
    exact ⟨hmem, (ho.spared_iff hvis hmem).2 ⟨hb, htag b (hvis b hb)⟩⟩

/-- The reports of two sweeps agree if they count as many survivors, and the second one leaves the
    free blocks of the first and takes nothing back. -/
theorem Counted.report_eq {g g' h₁ h₂ : Heap L} {before after : List Nat} {r₁ r₂ : SweepReport}
    (hc₁ : Counted h₁ before g after r₁) (hc₂ : Counted h₂ after g' after r₂)
    (hlive : r₂.live = r₁.live) (hspared : ∀ b ∈ after, h₂.Spared b ↔ h₁.Spared b)
    (hsize : ∀ b ∈ after, g'.sizeOf b = g.sizeOf b) (hclear : ∀ b ∈ after, h₂.bit b = false) :
    r₂ = { r₁ with reclaimed := 0 } := by
  obtain ⟨hblocks, hwords⟩ := hc₁.spaces_eq hc₂ hspared hsize
  have hreclaimed : r₂.reclaimed = 0 := by
    rw [hc₂.reclaimed, List.countP_eq_zero]
    intro b hb
    simp [hclear b hb]
  rw [← hlive, ← hblocks, ← hwords, ← hreclaimed]

/-- A collection that finds all allocated blocks reachable restores the heap. -/
theorem Ordered.collect_restores (ho : h.Ordered blocks) (htag : h.Tagged)
    (hroots : roots.Regular L) (hall : ∀ b, h.Allocated b → h.Reachable roots.candidates b) :
    ∃ (traces : List RootTrace) (r : SweepReport) (visited : List Nat),
      h.collect roots = (⟨traces, .ok r⟩, h.countCollection visited.length r.reclaimed) ∧
      Rebuilt (h.clearBits visited) blocks h blocks r ∧
      traces.foldr (fun t n => t.marked + n) 0 = visited.length ∧ visited.Nodup ∧
      ∀ b, b ∈ visited ↔ h.Allocated b := by
  obtain ⟨visited, traces, hmark, hsum, hnodup, hvis⟩ := markAll_eq ho.contained hroots
  have hused : ∀ b, b ∈ visited ↔ b ∈ h.usedOf blocks := fun b => by
    rw [hvis, ho.mem_usedOf_iff]
    exact ⟨fun hr => hr.allocated, hall b⟩
  have hin : ∀ b ∈ visited, L.InHeap b := fun b hb => ((hvis b).1 hb).allocated.1
  obtain ⟨r, hsweep⟩ := ho.sweep_marked htag
  rw [← clearBits_congr hin hused] at hsweep
  -- What is known of any sweep holds of this one.
  obtain ⟨g, after, r', hsweep', hr⟩ := HeapM.sweep_apply (ho.tiles_clearBits hin)
  rw [hsweep] at hsweep'
  cases hsweep'
  obtain rfl : after = blocks := hr.gathered.tiles.unique ho.tiles
  refine ⟨traces, r, visited, ?_, hr, hsum, hnodup, fun b => (hused b).trans ho.mem_usedOf_iff⟩
  rw [← hsum]
  exact collect_of_marked hmark hsweep

/-- **Repeating a collection.** On a heap in order whose allocated blocks are not tagged as free,
    the second collection finds what the first one left. -/
theorem Ordered.idle (ho : h.Ordered blocks) (htag : h.Tagged) (hroots : roots.Regular L) :
    Idle (h.collect roots).1 (h.collect roots).2 ((h.collect roots).2.collect roots).1
      ((h.collect roots).2.collect roots).2 := by
  obtain ⟨traces, r, g, after, visited, hrun, hr, hsum, hnodup, hvis⟩ := ho.collect_rebuilt hroots
  rw [hrun]
  generalize hm : g.countCollection visited.length r.reclaimed = m
  have hword : ∀ j, m.word j = g.word j := fun j => hm ▸ rfl
  have hc : Collected h roots blocks m after :=
    (ho.rebuilt hvis hr).of_words (hm ▸ rfl) (hm ▸ rfl)
  have hom := hc.ordered
  have hall : ∀ b, m.Allocated b → m.Reachable roots.candidates b := fun b hb =>
    hc.reachable htag (hc.allocated_iff.1 hb).1
  obtain ⟨traces', r', visited', hrun', hr', hsum', hnodup', hvis'⟩ :=
    hom.collect_restores hc.tagged hroots hall
  -- Both collections visit the same blocks and spare them.
  have hsame : ∀ b, b ∈ visited' ↔ b ∈ visited := fun b => by
    rw [hvis, hvis', hc.allocated_iff]
    exact ⟨fun hs => hs.1, fun hb => ⟨hb, htag b hb.allocated⟩⟩
  have hlength : visited'.length = visited.length :=
    ((List.perm_ext_iff_of_nodup hnodup' hnodup).2 hsame).length_eq
  have hfirst : ∀ b ∈ visited, h.Allocated b := fun b hb => ((hvis b).1 hb).allocated
  have hsecond : ∀ b ∈ visited', m.Allocated b := fun b hb => (hvis' b).1 hb
  have hlive : r'.live = r.live := by
    rw [hr'.counted.live_eq hom hc.tagged hsecond hnodup',
      hr.counted.live_eq ho htag hfirst hnodup, hlength]
  have hspared : ∀ b ∈ after,
      (m.clearBits visited').Spared b ↔ (h.clearBits visited).Spared b := fun b hb => by
    rw [hom.spared_iff hsecond hb, ho.spared_iff hfirst (hc.mem_before b hb), hsame]
    exact and_congr_right fun hmem =>
      iff_of_true (hc.tagged b (hsecond b ((hsame b).2 hmem))) (htag b (hfirst b hmem))
  have hclear : ∀ b ∈ after, (m.clearBits visited').bit b = false := by
    intro b hb
    rw [bit_clearBits (fun c hc => (hsecond c hc).1) (hom.inHeap hb).1]
    by_cases hset : m.bit b = true
    · simp [(hvis' b).2 ⟨hom.inHeap hb, hset⟩]
    · simp [hset]
  obtain rfl : r' = { r with reclaimed := 0 } :=
    hr.counted.report_eq hr'.counted hlive hspared (fun b _ => sizeOf_congr (hword _)) hclear
  rw [hrun']
  refine ⟨⟨r, rfl, rfl⟩, ?marked_eq, rfl, rfl, ?counters_eq⟩
  case marked_eq => exact hsum'.trans (hlength.trans hsum.symm)
  case counters_eq =>
    show { m.counters with
      collections := m.counters.collections + 1
      marked := m.counters.marked + visited'.length
      reclaimed := m.counters.reclaimed + 0 } = _
    rw [hlength, ← hsum]
    rfl

/-- **Repeating a collection changes nothing.** In regular use, with no request for a block tagged
    as free, a second collection from the same roots leaves every word and every list head as the
    first one did, and reports the same but that nothing is taken back. -/
theorem ReachedTagged.collect_again (hr : h.ReachedTagged) (hroots : roots.Regular L) :
    Idle (h.collect roots).1 (h.collect roots).2 ((h.collect roots).2.collect roots).1
      ((h.collect roots).2.collect roots).2 := by
  obtain ⟨blocks, ho⟩ := hr.reached.ordered
  exact ho.idle hr.tagged hroots

/-- The law for two blocks of which the roots name the second one only. -/
theorem collect_again_small :
    let h := (Step.tryAllocate 9 3).apply ((Step.tryAllocate 7 2).apply Heap.small)
    let roots : Roots := ⟨.ofIndex 6, .base, .base⟩
    h.ReachedTagged ∧ roots.Regular Layout.small ∧ h.Allocated 3 ∧ h.Allocated 6 ∧
      Idle (h.collect roots).1 (h.collect roots).2 ((h.collect roots).2.collect roots).1
        ((h.collect roots).2.collect roots).2 := by
  intro h roots
  have hplaced : Heap.small.ReachedTagged := .placed Arena.intoHeap_small
  have hone : ((Step.tryAllocate 7 2).apply Heap.small).ReachedTagged :=
    hplaced.step trivial (show (7 : Tag) ≠ Tag.free by decide)
  have hr : h.ReachedTagged := hone.step trivial (show (9 : Tag) ≠ Tag.free by decide)
  have hroots : roots.Regular Layout.small := by decide +kernel
  exact ⟨hr, hroots, by decide +kernel, by decide +kernel, hr.collect_again hroots⟩

end Heap

end ArenaHeap
