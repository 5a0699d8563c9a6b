import ArenaHeap.Proofs.Sweep.Gathered

namespace ArenaHeap

/-!
# Sweeping repairs the list of free blocks

A sweep starts a new list of free blocks and does not follow the old one. So whatever the words of
the heap are, with blocks that overlap or lead past the heap's end and links that go round in
circles, the list that it leaves goes through ascending places of the heap and ends.

No tiling holds here, and a header that the sweep writes may be a payload word of a block that it
has passed. The invariant is that it never is a link which was written before: free blocks stay
apart by more than a header, unless the one in front has no payload, and then the two are merged.

* `Heap.Mended` — the invariant: the list behind the sweep.
* `Heap.Mended.step` — sweeping one block keeps it.
* `HeapM.sweepFrom_mended` — so sweeping all that is ahead does, in as many turns as there are
  words.
-/

variable {L : Layout}

namespace Heap

/-- The list of free blocks behind a sweep that has come to `block`, whose last link is still to be
    written. -/
structure Mended (h : Heap L) (block : Nat) (free : List Nat) : Prop where
  inHeap : ∀ f ∈ free, L.firstBlock ≤ f ∧ f < L.heapEnd
  behind : ∀ f ∈ free, f < block
  /-- The header of a free block is not the link of one in front of it. -/
  apart : free.Pairwise fun f g => f + Header.words < g
  links : ∀ front f, free = front ++ [f] →
    h.Links (h.heads.get commonList) front (VAddr.ofIndex f)
  /-- Right in front of the block there is no free block, or one without payload. -/
  touching : ∀ f ∈ free.getLast?, block = f + Header.words → h.sizeOf f = 0

variable {h h' : Heap L} {b : Nat} {free : List Nat} {r : SweepReport}

namespace Mended

/-- Nothing has been swept yet. -/
theorem initial (h : Heap L) (b : Nat) : h.Mended b [] := by
  refine ⟨?_, ?_, .nil, fun front f hfree => ?_, ?_⟩
  · simp
  · simp
  · simp at hfree
  · simp

/-- The last free block, and those in front of it. -/
theorem lt_last {front : List Nat} {f : Nat} (hm : h.Mended b (front ++ [f])) :
    ∀ c ∈ front, c + Header.words < f :=
  fun c hc => (List.pairwise_append.1 hm.apart).2.2 c hc f (List.mem_singleton_self f)

/-- The free blocks so far are a path, wherever it ends. -/
theorem exists_links (hm : h.Mended b free) :
    ∃ v, h.Links (h.heads.get commonList) free v := by
  rcases List.eq_nil_or_concat' free with rfl | ⟨front, f, rfl⟩
  · exact ⟨_, rfl⟩
  · exact ⟨_, links_concat_iff.2 ⟨hm.links front f rfl, rfl⟩⟩

theorem nodup (hm : h.Mended b free) : free.Nodup :=
  hm.apart.imp fun hlt => by omega

/-- A free block that does not touch the next block lies in front of its header, link and all. -/
theorem lt_of_gap (hm : h.Mended b free)
    (hgap : ∀ f ∈ free.getLast?, f + h.sizeOf f + Header.words ≠ b) :
    ∀ f ∈ free, f + Header.words < b := by
  rcases List.eq_nil_or_concat' free with rfl | ⟨front, l, rfl⟩
  · exact fun f hf => absurd hf List.not_mem_nil
  · have hl := hm.behind l (by simp)
    have hlast : l + Header.words < b := by
      have hgap' := hgap l (by simp)
      rw [Header.words] at *
      -- The header of a block right behind would be the last link, but the two touch.
      by_contra hnot
      have hnext : b = l + 1 := by omega
      have := hm.touching l (by simp) hnext
      omega
    intro f hf
    rcases List.mem_append.1 hf with hf | hf
    · have := hm.lt_last f hf
      omega
    · rw [List.mem_singleton] at hf
      omega

/-- Setting the bit of a block changes nothing about the list. -/
theorem spare (hm : h.Mended b free) (hb : L.InHeap b) (size : Nat) :
    (h.setBit b).Mended (b + size + Header.words) free := by
  have hword : ∀ j, L.heapStart ≤ j → (h.setBit b).word j = h.word j :=
    fun j hj => h.word_setBit (hb.ne_bitWord (.inr hj))
  refine ⟨hm.inHeap, fun f hf => ?behind, hm.apart, fun front f hfree => ?links,
    fun f hf hnext => ?touching⟩
  case behind =>
    have := hm.behind f hf
    omega
  case links =>
    refine (hm.links front f hfree).congr fun c hc => hword c ?_
    have := (hm.inHeap c (hfree ▸ List.mem_append_left _ hc)).1
    rw [Layout.firstBlock] at this
    omega
  case touching =>
    have := hm.behind f (List.mem_of_getLast? hf)
    rw [Header.words] at hnext
    omega

/-- A block that does not touch the last free block is linked behind it. -/
theorem separate (hm : h.Mended b free) (hb : L.InHeap b) (hlow : L.firstBlock ≤ b)
    (hgap : ∀ f ∈ free.getLast?, f + h.sizeOf f + Header.words ≠ b) {size : Nat}
    (hsize : size ≤ Header.maxSize) :
    ((h.released b size).relinked free.getLast? (VAddr.ofIndex b)).Mended
      (b + size + Header.words) (free ++ [b]) := by
  have hlt := hm.lt_of_gap hgap
  rw [Header.words] at hlt
  refine ⟨?inHeap, ?behind, ?apart, ?links, ?touching⟩
  case inHeap =>
    exact List.forall_mem_append.2 ⟨hm.inHeap, List.forall_mem_singleton.2 ⟨hlow, hb.2⟩⟩
  case behind =>
    refine List.forall_mem_append.2 ⟨fun f hf => ?_, List.forall_mem_singleton.2 ?_⟩
    · have := hm.behind f hf
      omega
    · rw [Header.words]
      omega
  case apart =>
    refine List.pairwise_append.2 ⟨hm.apart, List.pairwise_singleton _ _, fun f hf g hg => ?_⟩
    rw [List.mem_singleton.1 hg]
    exact hlt f hf
  case links =>
    intro front f hfree
    obtain ⟨rfl, hbf⟩ := List.append_inj' hfree rfl
    rw [List.singleton_inj] at hbf
    obtain ⟨v, hlinks⟩ := hm.exists_links
    have hlinks' : (h.released b size).Links ((h.released b size).heads.get commonList) free v := by
      refine hlinks.congr fun c hc => word_released ?_ ?_
      · have := (hm.inHeap c hc).1
        exact hb.ne_bitWord (.inr (by rw [Layout.firstBlock] at this; omega))
      · have := hlt c hc
        omega
    rw [← hbf]
    exact hlinks'.relinked hm.nodup (fun c hc => (hm.inHeap c hc).2) _
  case touching =>
    intro f hf hnext
    rw [List.getLast?_concat, Option.mem_some_iff] at hf
    subst hf
    have hheader : ∀ c ∈ free.getLast?, c ≠ b - 1 := by
      intro c hc
      have := hlt c (List.mem_of_getLast? hc)
      omega
    rw [sizeOf_congr (word_relinked _ (fun hc => hheader _ hc rfl) _),
      sizeOf_released (by have := hb.lt_size; omega) hsize]
    omega

/-- A block that touches the last free block is merged into it, which leaves the list as it is. -/
theorem merge {front : List Nat} {f : Nat} (hm : h.Mended b (front ++ [f])) (hb : L.InHeap b)
    (htouch : f + h.sizeOf f + Header.words = b) (size grown : Nat) :
    ((h.released b size).putHeader f Tag.free grown).Mended (b + size + Header.words)
      (front ++ [f]) := by
  have hlt := hm.lt_last
  rw [Header.words] at hlt htouch
  refine ⟨hm.inHeap, fun c hc => ?behind, hm.apart, fun front' f' hfree => ?links,
    fun c hc hnext => ?touching⟩
  case behind =>
    have := hm.behind c hc
    omega
  case links =>
    obtain ⟨rfl, hff⟩ := List.append_inj' hfree rfl
    refine (hm.links front f' hfree).congr fun c hc => ?_
    have hc' := hlt c hc
    rw [word_putHeader_ne _ (by omega)]
    refine word_released (hb.ne_bitWord (.inr ?_)) (by omega)
    have := (hm.inHeap c (List.mem_append_left _ hc)).1
    rw [Layout.firstBlock] at this
    omega
  case touching =>
    rw [List.getLast?_concat, Option.mem_some_iff] at hc
    rw [Header.words] at hnext
    omega

/-- **One block.** Sweeping any block meets no fault and keeps the list in shape. -/
theorem step (hm : h.Mended b free) (hb : L.InHeap b) (hlow : L.firstBlock ≤ b)
    (r : SweepReport) :
    ∃ free' r' h', HeapM.sweepBlock b (h.sizeOf b) free.getLast? r h =
        (.ok (free'.getLast?, r'), h') ∧
      h'.Mended (b + h.sizeOf b + Header.words) free' := by
  have hlow' : L.heapStart < b := hlow
  by_cases hs : h.Spared b
  · exact ⟨free, _, _, HeapM.sweepBlock_spare hb hlow' hs, hm.spare hb _⟩
  rw [HeapM.sweepBlock_release hb hlow' hs]
  have hsizes : ∀ f ∈ free, (h.released b (h.sizeOf b)).sizeOf f = h.sizeOf f := by
    intro f hf
    have := hm.behind f hf
    have := (hm.inHeap f hf).1
    rw [Layout.firstBlock, Header.words] at this
    exact sizeOf_congr (word_released (hb.ne_bitWord (.inr (by omega))) (by omega))
  have hbounds : ∀ f ∈ free, 0 < f ∧ f < L.size := fun f hf =>
    ⟨Nat.lt_of_lt_of_le (Nat.succ_pos _) (hm.inHeap f hf).1, (hm.inHeap f hf).2⟩
  by_cases hgap : ∀ f ∈ free.getLast?, f + h.sizeOf f + Header.words ≠ b
  · have hlast : ∀ f ∈ free.getLast?, 0 < f ∧ f < L.size ∧
        f + (h.released b (h.sizeOf b)).sizeOf f + Header.words ≠ b := by
      intro f hf
      have hmem := List.mem_of_getLast? hf
      rw [hsizes f hmem]
      exact ⟨(hbounds f hmem).1, (hbounds f hmem).2, hgap f hf⟩
    have hrun := HeapM.release_separate (r := if h.tagOf b = Tag.free then r else r.reclaim)
      hb hlow' hlast
    rw [← List.getLast?_concat (l := free)] at hrun
    exact ⟨_, _, _, hrun, hm.separate hb hlow hgap (h.sizeOf_le b)⟩
  · simp only [not_forall, not_not] at hgap
    obtain ⟨f, hf, htouch⟩ := hgap
    obtain ⟨front, rfl⟩ := List.getLast?_eq_some_iff.1 hf
    have hmem : f ∈ front ++ [f] := by simp
    have htouch' : f + (h.released b (h.sizeOf b)).sizeOf f + Header.words = b := by
      rw [hsizes f hmem]
      exact htouch
    have hrun := HeapM.release_merge (r := if h.tagOf b = Tag.free then r else r.reclaim)
      hb hlow' (hbounds f hmem).1 (hbounds f hmem).2 htouch'
    rw [← List.getLast?_concat (l := front)] at hrun
    exact ⟨_, _, _, hrun, hm.merge hb htouch _ _⟩

end Mended

end Heap

/-! ### The loop -/

namespace HeapM

open Heap

/-- The loop of a sweep, cut off after some turns; none if it is not over by then. -/
def sweepWithin (block : Nat) (last : Option Nat) (r : SweepReport) :
    (turns : Nat) → HeapM L (Option (Option Nat × SweepReport))
  | 0 => return if block < L.heapEnd then none else some (last, r)
  | turns + 1 => do
    if block < L.heapEnd then
      let size ← ask (·.sizeAt block)
      let (last, r) ← sweepBlock block size last r
      sweepWithin (block + size + Header.words) last r turns
    else
      return some (last, r)

/-- **All blocks ahead.** Whatever the words of the heap are, sweeping from a block on meets no
    fault, takes no more turns than there are words ahead, and keeps the list in shape. -/
theorem sweepFrom_mended {h : Heap L} {b : Nat} {free : List Nat} (hm : h.Mended b free)
    (hlow : L.firstBlock ≤ b) (r : SweepReport) {turns : Nat} (hturns : L.heapEnd ≤ b + turns) :
    ∃ stop free' r' h', sweepFrom b free.getLast? r h = (.ok (free'.getLast?, r'), h') ∧
      sweepWithin b free.getLast? r turns h = (.ok (some (free'.getLast?, r')), h') ∧
      h'.Mended stop free' := by
  -- By induction on the turns that are left.
  induction turns generalizing h b free r with
  | zero =>
    refine ⟨b, free, r, h, ?_, ?_, hm⟩
    · rw [sweepFrom, if_neg (by omega)]
      rfl
    · rw [sweepWithin, if_neg (by omega)]
      rfl
  | succ turns ih =>
    by_cases hend : b < L.heapEnd
    · have hb : L.InHeap b := ⟨Nat.le_of_lt hlow, hend⟩
      have hread : ask (·.sizeAt b) h = (.ok (h.sizeOf b), h) :=
        ask_eq_ok (h.sizeAt_eq_ok (Nat.lt_of_lt_of_le (Nat.succ_pos _) hlow)
          (Nat.le_of_lt hb.lt_size))
      obtain ⟨free', r', h', hrun, hm'⟩ := hm.step hb hlow r
      have hlow' : L.firstBlock ≤ b + h.sizeOf b + Header.words := by omega
      obtain ⟨stop, free'', r'', h'', hfrom, hwithin, hm''⟩ :=
        ih hm' hlow' r' (by rw [Header.words]; omega)
      refine ⟨stop, free'', r'', h'', ?_, ?_, hm''⟩
      · rw [sweepFrom, if_pos hend, bind_apply hread, bind_apply hrun]
        exact hfrom
      · rw [sweepWithin, if_pos hend, bind_apply hread, bind_apply hrun]
        exact hwithin
    · refine ⟨b, free, r, h, ?_, ?_, hm⟩
      · rw [sweepFrom, if_neg hend]
        rfl
      · rw [sweepWithin, if_neg hend]
        rfl

end HeapM

end ArenaHeap
