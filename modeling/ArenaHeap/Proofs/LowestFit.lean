import ArenaHeap.Proofs.Representation

namespace ArenaHeap

/-!
# A request takes the lowest block that fits

A request without a collection walks along the list of free blocks, which has them in the order of
their addresses, and takes the first that is large enough. Seen from the outside it does one of two
things to the sequence of blocks: it hands out one of them as a whole, or it cuts one in two and
hands out the lower part.

* `Heap.HandedOut` — what handing out a block does to the blocks, to the list of free blocks and to
  the words.
* `Heap.Fitting.exists_rest` — the two ways to serve a request, as changes of the two sequences.
* `Heap.Reached.first_fit` — the law for heaps in regular use.
-/

variable {L : Layout}

namespace Heap

/-- Handing out `g` for a request makes `h'` of the heap `h`, whose blocks are `below`, then the
    block handed out, and then `above`; `rest` has the block that is left of a block that was
    cut. -/
structure HandedOut (h : Heap L) (tag : Tag) (size : Nat) (g : Grant) (h' : Heap L)
    (below rest above : List Nat) : Prop where
  /-- The block was free and large enough, and no free block in front of it is. -/
  free_before : h.bit g.block = false
  size_le : requestSize size ≤ h.sizeOf g.block
  below_lt : ∀ b ∈ h.freeOf below, h.sizeOf b < requestSize size
  lowest : ∀ b ∈ h.freeOf (below ++ g.block :: above), requestSize size ≤ h.sizeOf b → g.block ≤ b
  /-- It is cut if the rest has room for a header and a link, and is handed out whole otherwise. -/
  rest_eq : (requestSize size + 2 ≤ h.sizeOf g.block ∧ g.size = requestSize size ∧
      rest = [g.block + g.size + 1]) ∨
    (h.sizeOf g.block < requestSize size + 2 ∧ g.size = h.sizeOf g.block ∧ rest = [])
  tag_eq : g.tag = tag
  info_block : h'.info g.block = ⟨g.block, tag, g.size, true⟩
  info_rest : ∀ r ∈ rest, h'.info r = ⟨r, Tag.free, h.sizeOf g.block - g.size - 1, false⟩
  /-- All other blocks keep their place, their header and their bit. -/
  info_eq : ∀ b ∈ below ++ above, h'.info b = h.info b
  blocks : h'.blocks = .ok ((below ++ g.block :: (rest ++ above)).map h'.info).toArray
  /-- The rest has the place on the list that the block had. -/
  freeList : h'.freeList commonList =
    .ok ((h.freeOf below ++ (rest ++ h.freeOf above)).map VAddr.ofIndex).toArray
  /-- All words stay but the header of the block, the header and the link of the rest, the link of
      the free block in front, and the word with the bit of the block. -/
  word_eq : ∀ j, j ≠ g.block - 1 → (∀ r ∈ rest, j ≠ r - 1 ∧ j ≠ r) →
    (h.freeOf below).getLast? ≠ some j → j ≠ L.bitWord g.block → h'.word j = h.word j
  bit_eq : ∀ i, L.HasBit i → h'.bit i = (decide (g.block = i) || h.bit i)
  payload_eq : ∀ b, h.Allocated b → h'.payloadOf b = h.payloadOf b
  /-- The head of the list changes only if there is no free block in front. -/
  heads_eq : h.freeOf below ≠ [] → h'.heads = h.heads
  heads_ne : ∀ n : Fin listCount, n ≠ commonList → h'.heads.get n = h.heads.get n
  counters_eq : h'.counters = { h.counters with allocations := h.counters.allocations + 1 }

variable {h : Heap L} {blocks front back xs ys : List Nat} {tag : Tag} {size : Nat} {fit : Fit}

/-- A block in front of the one found is what is relinked, if there is one. -/
theorem heads_awarded_of_pred {p : Nat} (hp : fit.pred = some p) :
    (h.awarded tag size fit).heads = h.heads := by
  show ((if h.Splits size fit then h.awardedPart tag size fit
    else h.awardedWhole tag fit)).heads = h.heads
  unfold awardedPart awardedWhole
  rw [hp]
  split <;> rfl

namespace Fitting

/-- Serving a request from a fitting block, seen as a change of the sequence of blocks and of the
    list of free blocks: the block handed out is followed by the rest, which takes its place on the
    list. -/
theorem exists_rest (hf : h.Fitting blocks size fit front back) (ho : h.Ordered blocks)
    (hpos : 1 ≤ size) (tag : Tag) (hblocks : blocks = xs ++ fit.block :: ys)
    (hxs : h.freeOf xs = front) (hys : h.freeOf ys = back) :
    ∃ rest, (h.awarded tag size fit).Ordered (xs ++ fit.block :: (rest ++ ys)) ∧
      (h.awarded tag size fit).freeOf (xs ++ fit.block :: (rest ++ ys)) =
        front ++ (rest ++ back) ∧
      ((h.Splits size fit ∧ rest = [restOf size fit]) ∨ (¬ h.Splits size fit ∧ rest = [])) := by
  by_cases hs : h.Splits size fit
  · refine ⟨[restOf size fit], ho.awarded_part hf hpos hs hblocks hxs hys, ?_, .inl ⟨hs, rfl⟩⟩
    rw [← hxs, ← hys]
    exact ho.freeOf_awarded_part hf hblocks hs
  · have hwhole : (h.awarded tag size fit).freeOf blocks = h.freeOf xs ++ h.freeOf ys :=
      ho.freeOf_awarded_whole hf hblocks
    have hordered : (h.awarded tag size fit).Ordered blocks := ho.awarded_whole hf hpos hs
    rw [hxs, hys] at hwhole
    rw [hblocks] at hwhole hordered
    exact ⟨[], hordered, hwhole, .inr ⟨hs, rfl⟩⟩

/-- The payload of an allocated block has no word in common with a free block. -/
theorem payloadOf_awarded (hf : h.Fitting blocks size fit front back) (ho : h.Ordered blocks)
    {b : Nat} (hb : h.Allocated b) : (h.awarded tag size fit).payloadOf b = h.payloadOf b := by
  obtain ⟨hmem, hset⟩ := ho.allocated_iff.1 hb
  have hlow := (ho.bounds hmem).1
  have hword : ∀ j, h.Covers b j → (h.awarded tag size fit).word j = h.word j := by
    intro j hj
    obtain ⟨hj₁, hj₂⟩ := hj
    exact ho.word_awarded hf (.inr (by omega)) fun c hc hclear =>
      ho.not_covers_free hmem hset ⟨hj₁, hj₂⟩ hc hclear
  refine payloadOf_congr (sizeOf_congr ?_) fun k hk => hword _ ⟨by omega, by omega⟩
  exact hword _ ⟨by omega, by omega⟩

/-- **Serving a request.** The first block on the list that fits is handed out. -/
theorem handedOut (hf : h.Fitting blocks (requestSize size) fit front back) (ho : h.Ordered blocks)
    (tag : Tag) : ∃ below rest above, blocks = below ++ fit.block :: above ∧
      HandedOut h tag size (h.grantOf tag (requestSize size) fit)
        (h.awarded tag (requestSize size) fit) below rest above := by
  have hpos : 1 ≤ requestSize size := Nat.le_max_right ..
  obtain ⟨xs, ys, hblocks, hxs, hys⟩ := hf.exists_around
  obtain ⟨rest, hafter, hfree, hcut⟩ := hf.exists_rest ho hpos tag hblocks hxs hys
  -- Whether the block is cut decides about its size and about the rest.
  have hrest : (requestSize size + 2 ≤ h.sizeOf fit.block ∧
        (h.grantOf tag (requestSize size) fit).size = requestSize size ∧
        rest = [fit.block + (h.grantOf tag (requestSize size) fit).size + 1]) ∨
      (h.sizeOf fit.block < requestSize size + 2 ∧
        (h.grantOf tag (requestSize size) fit).size = h.sizeOf fit.block ∧ rest = []) := by
    refine hcut.imp (fun ⟨hs, hrest⟩ => ?_) fun ⟨hs, hrest⟩ => ?_
    · rw [grantOf, if_pos hs]
      exact ⟨hs, rfl, hrest⟩
    · rw [grantOf, if_neg hs]
      exact ⟨Nat.lt_of_not_le hs, rfl, hrest⟩
  have hothers : ∀ b ∈ xs ++ ys, b ∈ blocks ∧ b ≠ fit.block := by
    obtain ⟨hx, hy⟩ := ho.not_mem_around hblocks
    intro b hb
    refine ⟨by rw [hblocks]; simp at hb ⊢; tauto, ?_⟩
    rintro rfl
    exact (List.mem_append.1 hb).elim hx hy
  refine ⟨xs, rest, ys, hblocks, hf.mem_free.2, hf.size_le, by rw [hxs]; exact hf.front_lt, ?lowest,
    hrest, rfl, ?info_block, ?info_rest, ?info_eq, blocks_eq_ok _ (tiles_iff.2 hafter.tiles),
    ?freeList, ?word_eq, fun i hi => hf.bit_awarded ho hi, fun b hb => hf.payloadOf_awarded ho hb,
    ?heads_eq, fun n hn => Ordered.heads_awarded hn,
    Ordered.counters_awarded⟩
  case lowest =>
    intro b (hb : b ∈ h.freeOf (xs ++ fit.block :: ys))
    rw [← hblocks] at hb
    obtain ⟨hmem, hclear⟩ := mem_freeOf.1 hb
    exact hf.lowest ho hmem hclear
  case info_block =>
    show (h.awarded tag (requestSize size) fit).info fit.block = ⟨fit.block, tag, _, true⟩
    unfold info
    rw [ho.tagOf_awarded hf hpos, ho.sizeOf_awarded hf hpos, ho.bit_awarded_self hf]
  case info_rest =>
    rcases hcut with ⟨hs, rfl⟩ | ⟨_, rfl⟩
    · intro r hr
      rw [List.mem_singleton] at hr
      subst hr
      unfold info
      rw [ho.tagOf_rest hf hs, ho.sizeOf_rest hf hs, ho.bit_rest hf hs, grantOf, if_pos hs]
      rfl
    · simp
  case info_eq =>
    intro b hb
    obtain ⟨hmem, hne⟩ := hothers b hb
    have hheader : (h.awarded tag (requestSize size) fit).word (b - 1) = h.word (b - 1) :=
      hf.word_header_of_ne ho hmem hne
    unfold info
    rw [tagOf_congr hheader, sizeOf_congr hheader, ho.bit_awarded_of_ne hf hmem hne]
  case freeList =>
    rw [hafter.freeList, hfree, hxs, hys]
  case word_eq =>
    intro j hheader hrest' hpred hbit
    refine word_awarded_of_ne hbit hheader (fun hs => ?_) (by rwa [hf.pred_eq, ← hxs])
    rcases hcut with ⟨_, rfl⟩ | ⟨hnot, _⟩
    · exact hrest' _ (List.mem_singleton_self _)
    · exact absurd hs hnot
  case heads_eq =>
    intro hfront
    obtain ⟨p, hp⟩ := Option.isSome_iff_exists.1 (List.getLast?_isSome.2 hfront)
    exact heads_awarded_of_pred (hf.pred_eq.trans (hxs ▸ hp))

end Fitting

/-- What a request comes to: it is refused, or served from a block that fits. -/
theorem Ordered.handedOut_cases (ho : h.Ordered blocks) (tag : Tag) (size : Nat) :
    (HeapM.tryAllocate tag size h = (.ok none, h) ∧
      ∀ b ∈ h.freeOf blocks, h.sizeOf b < requestSize size) ∨
    ∃ g h' below rest above, HeapM.tryAllocate tag size h = (.ok (some g), h') ∧
      blocks = below ++ g.block :: above ∧ HandedOut h tag size g h' below rest above := by
  cases hfit : h.firstFit (requestSize size) none (h.freeOf blocks) with
  | none => exact .inl ⟨HeapM.tryAllocate_eq_none ho hfit, firstFit_eq_none_iff.1 hfit⟩
  | some fit =>
    obtain ⟨front, back, hf⟩ := Fitting.of_firstFit hfit
    obtain ⟨below, rest, above, hblocks, hhanded⟩ := hf.handedOut ho tag
    exact .inr ⟨_, _, below, rest, above, HeapM.tryAllocate_eq_some ho hfit hf, hblocks, hhanded⟩

/-- Handing out a block keeps the heap in order. -/
theorem HandedOut.ordered (hh : HandedOut h tag size g h' below rest above) (ho : h.Ordered blocks)
    (hrun : HeapM.tryAllocate tag size h = (.ok (some g), h')) :
    h'.Ordered (below ++ g.block :: (rest ++ above)) := by
  rcases ho.tryAllocate_cases tag size with ⟨hnone, _⟩ | ⟨g', h'', after, hsome, hgranted⟩
  · cases hrun.symm.trans hnone
  · cases hrun.symm.trans hsome
    rw [hgranted.ordered.eq_of_blocks hh.blocks]
    exact hgranted.ordered

/-- **First fit.** A request without a collection is refused just if every free block is too small,
    and then the heap stays as it was. Otherwise the lowest free block that is large enough is
    handed out: whole, if no more than a word of it would be left, and else its lower part, with
    the rest in its place on the list. -/
theorem Reached.first_fit (hr : h.Reached) (tag : Tag) (size : Nat) :
    ∃ blocks, h.blocks = .ok (blocks.map h.info).toArray ∧
      h.freeList commonList = .ok ((h.freeOf blocks).map VAddr.ofIndex).toArray ∧
      ((HeapM.tryAllocate tag size h).1 = .ok none ↔
        ∀ b ∈ h.freeOf blocks, h.sizeOf b < requestSize size) ∧
      ((HeapM.tryAllocate tag size h).1 = .ok none → (HeapM.tryAllocate tag size h).2 = h) ∧
      ((∃ b ∈ h.freeOf blocks, requestSize size ≤ h.sizeOf b) →
        ∃ g h' below rest above, HeapM.tryAllocate tag size h = (.ok (some g), h') ∧
          blocks = below ++ g.block :: above ∧ HandedOut h tag size g h' below rest above) := by
  obtain ⟨blocks, ho⟩ := hr.ordered
  refine ⟨blocks, h.blocks_eq_ok (tiles_iff.2 ho.tiles), ho.freeList, ?_⟩
  rcases ho.handedOut_cases tag size with ⟨hrun, hsmall⟩ |
    ⟨g, h', below, rest, above, hrun, hblocks, hhanded⟩
  · rw [hrun]
    refine ⟨iff_of_true rfl hsmall, fun _ => rfl, ?_⟩
    rintro ⟨b, hb, hlarge⟩
    exact absurd (hsmall b hb) (Nat.not_lt.2 hlarge)
  · have hmem : g.block ∈ h.freeOf blocks :=
      mem_freeOf.2 ⟨by rw [hblocks]; simp, hhanded.free_before⟩
    rw [hrun]
    refine ⟨iff_of_false nofun fun hsmall => ?_, nofun, fun _ =>
      ⟨g, h', below, rest, above, rfl, hblocks, hhanded⟩⟩
    exact absurd (hsmall _ hmem) (Nat.not_lt.2 hhanded.size_le)

/-- A block of nine words is handed out whole to a request for eight. -/
theorem first_fit_small :
    let h := (Step.tryAllocate 7 3).apply Heap.small
    h.Reached ∧ ∃ g h' below rest above, HeapM.tryAllocate 9 8 h = (.ok (some g), h') ∧
      g = ⟨9, 7, 9⟩ ∧ h'.freeList commonList = .ok #[] ∧
      HandedOut h 9 8 g h' below rest above := by
  intro h
  have hr : h.Reached := reached_small.step trivial
  have hgranted : (Step.tryAllocate 9 8).granted h = some ⟨9, 7, 9⟩ := by decide +kernel
  have hlist : (HeapM.tryAllocate 9 8 h).2.freeList commonList = .ok #[] := by decide +kernel
  obtain ⟨blocks, _, _, hrefused, _, hserved⟩ := hr.first_fit 9 8
  have hfits : ∃ b ∈ h.freeOf blocks, requestSize 8 ≤ h.sizeOf b := by
    by_contra hsmall
    have hnone := hrefused.2 fun b hb => Nat.lt_of_not_le fun hle => hsmall ⟨b, hb, hle⟩
    rw [Step.granted, hnone] at hgranted
    cases hgranted
  obtain ⟨g, h', below, rest, above, hrun, _, hhanded⟩ := hserved hfits
  rw [Step.granted, hrun] at hgranted
  rw [hrun] at hlist
  exact ⟨hr, g, h', below, rest, above, hrun, Option.some.inj hgranted, hlist, hhanded⟩

end Heap

end ArenaHeap
