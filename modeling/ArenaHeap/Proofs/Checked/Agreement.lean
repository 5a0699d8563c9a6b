import ArenaHeap.Proofs.Checked.Operations

namespace ArenaHeap

/-!
# The checks pass

A checked operation does what the operation itself does, as long as every number passes its check.
Most checks pass on any heap: an index in the arena is below `2 ^ 30` and a size in a header below
`2 ^ 24`, so their sums are far from 64 bits. Where the list of free blocks is changed, order is
what keeps the sizes that are written within the limit: they are those of parts of the heap.

* `Checked.bind_congr` — agreement is shown one operation at a time.
* `Checked.intoHeap_eq` — placing a heap.
* `Checked.award_eq`, `Checked.tryAllocate_eq` — requests.
* `Checked.trace_eq`, `Checked.sweepFrom_eq`, `Checked.collect_eq` — collections.
* `Checked.walkFrom_eq`, `Checked.usage_eq` — the walk.
* `Checked.perform_eq`, `Checked.run_eq` — one step, and a run of them.
-/

variable {L : Layout}

/-- The counts of a report are far from 64 bits. -/
structure SweepReport.Small (r : SweepReport) : Prop where
  live : r.live < 1 <<< 32
  reclaimed : r.reclaimed < 1 <<< 32
  freeBlocks : r.freeBlocks < 1 <<< 32
  freeWords : r.freeWords < 1 <<< 32

namespace Checked

/-! ### Checks -/

theorem sum_eq_ok {a b : Nat} (h : a + b < 1 <<< 64) : sum a b = .ok (a + b) := if_pos h

theorem difference_eq_ok {a b : Nat} (h : b ≤ a) : difference a b = .ok (a - b) := if_pos h

theorem header_eq_ok (tag : Tag) {size : Nat} (h : size ≤ Header.maxSize) :
    header tag size = .ok (Header.ofSize tag size) :=
  if_pos ⟨h, Header.size_ofSize tag h, Header.tag_ofSize tag h⟩

theorem address_eq_ok {i : Nat} (h : i < 1 <<< 30) : address i = .ok (VAddr.ofIndex i) :=
  if_pos ⟨h, VAddr.index_ofIndex h⟩

/-- Three numbers of which each is at most an index or a size have a sum that fits 64 bits. -/
theorem sum_sum_eq_ok {a b c : Nat} (ha : a < 1 <<< 32) (hb : b < 1 <<< 32) (hc : c < 1 <<< 32) :
    (do sum (← sum a b) c) = .ok (a + b + c) := by
  show (sum a b >>= fun s => sum s c) = _
  rw [sum_eq_ok (by omega)]
  exact sum_eq_ok (by omega)

/-! ### Running -/

section Run

variable {α β : Type} {h h' : Heap L} {a : α}

theorem bind_apply {m : CheckedM L α} {f : α → CheckedM L β} (hm : m h = (.ok a, h')) :
    (m >>= f) h = f a h' := by
  show ExceptT.bind m f h = f a h'
  simp only [ExceptT.bind, ExceptT.mk, bind, StateT.bind, ExceptT.bindCont]
  rw [hm]

theorem check_bind {r : Except Stop α} {f : α → CheckedM L β} (hr : r = .ok a) :
    (check r >>= f) h = f a h := bind_apply (congrArg (·, h) hr)

theorem unchecked_apply {m : HeapM L α} (hm : m h = (.ok a, h')) :
    unchecked m h = (.ok a, h') := by
  unfold unchecked
  rw [hm]
  rfl

/-- **Agreement, one operation at a time.** Checked operations go on to agree if they agree so far
    and go on from the same heap. -/
theorem bind_congr {c : CheckedM L α} {m : HeapM L α} {g : α → CheckedM L β} {f : α → HeapM L β}
    (hc : c h = unchecked m h) (hg : ∀ a h', m h = (.ok a, h') → g a h' = unchecked (f a) h') :
    (c >>= g) h = unchecked (m >>= f) h := by
  show ExceptT.bind c g h = (plain (ExceptT.bind m f h).1, (ExceptT.bind m f h).2)
  simp only [ExceptT.bind, ExceptT.mk, bind, StateT.bind, ExceptT.bindCont]
  rw [hc, unchecked]
  rcases hm : m h with ⟨_ | a, h'⟩
  · rfl
  · exact hg a h' hm

theorem unchecked_bind {m : HeapM L α} {g : α → CheckedM L β} {f : α → HeapM L β}
    (hg : ∀ a h', m h = (.ok a, h') → g a h' = unchecked (f a) h') :
    (unchecked m >>= g) h = unchecked (m >>= f) h := bind_congr rfl hg

/-- What a block's header says about its size is the same for both. -/
theorem sizeAt_bind {b : Nat} {g : Nat → CheckedM L β} {f : Nat → HeapM L β} (hpos : 0 < b)
    (hb : b ≤ L.size) (hg : g (h.sizeOf b) h = unchecked (f (h.sizeOf b)) h) :
    (unchecked (HeapM.ask (·.sizeAt b)) >>= g) h =
      unchecked (HeapM.ask (·.sizeAt b) >>= f) h := by
  refine unchecked_bind fun n h' hread => ?_
  rw [HeapM.ask_eq_ok (h.sizeAt_eq_ok hpos hb)] at hread
  cases hread
  exact hg

end Run

/-! ### Placing a heap -/

/-- The checks on the way to a layout. -/
theorem regions_eq {length reserved : Nat} (hr : reserved < length) (h : length < 1 <<< 30) :
    difference length reserved = .ok (length - reserved) ∧
      difference (length - reserved) 1 = .ok (length - reserved - 1) ∧
      sum ((length - reserved - 1) / (Word.bits + 1)) 1 =
        .ok (Layout.bitmapFor (length - reserved)) ∧
      difference (length - reserved) (Layout.bitmapFor (length - reserved)) =
        .ok (length - reserved - Layout.bitmapFor (length - reserved)) ∧
      product (Layout.bitmapFor (length - reserved)) Word.bits =
        .ok (Layout.bitmapFor (length - reserved) * Word.bits) := by
  simp only [Layout.bitmapFor, Word.bits]
  exact ⟨difference_eq_ok hr.le, difference_eq_ok (by omega), sum_eq_ok (by omega),
    difference_eq_ok (by omega), if_pos (by omega)⟩

/-- Placing a heap forms no number that fails a check, whether the heap fits or is refused. -/
theorem place_eq (length : Nat) (h : length < 1 <<< 30) (start : Pointer) :
    place length h start = .ok (Layout.place length h start) := by
  unfold place Layout.place
  split
  · split
    · rfl
    · simp_all
  rename_i reserved hi
  split
  · simp_all
  rename_i reserved' hi'
  obtain rfl : reserved = reserved' := Option.some.inj (hi.symm.trans hi')
  have hr := Pointer.lt_of_index? hi
  obtain ⟨hrest, hless, hbitmap, hheap, hbits⟩ := regions_eq hr h
  simp only [hrest, hless, hbitmap, hheap, hbits, bind, Except.bind]
  by_cases hs : length - reserved - Layout.bitmapFor (length - reserved) <
      Header.words + Header.minSize
  · simp only [hs, dite_true]
    rfl
  · have hfits : Header.words ≤ length - reserved - Layout.bitmapFor (length - reserved) := by
      rw [Header.words, Header.minSize] at *
      omega
    simp only [hs, dite_false, difference_eq_ok hfits]
    by_cases hl : Header.maxSize <
        length - reserved - Layout.bitmapFor (length - reserved) - Header.words
    · simp only [hl, dite_true]
      rfl
    · simp only [hl, dite_false, Layout.sub_bitmapFor_le, Layout.size_place hr, and_self, dite_true]
      rfl

/-- A heap that is placed has a first header that can be recorded and two words in the arena. -/
theorem fresh_eq (L : Layout) (words : Vector Word L.size) :
    fresh L words = .ok (Heap.fresh L words) := by
  have hlt := L.size_lt
  have hfits := L.fits
  have hmax := L.recordable
  have hsize : L.size = L.reserved + L.bitmap + L.heap := rfl
  rw [Header.words, Header.minSize] at hfits
  rw [Header.words] at hmax
  unfold fresh
  simp only [sum_eq_ok (show L.reserved + L.bitmap < 1 <<< 64 by omega),
    difference_eq_ok (show L.reserved + L.bitmap ≤ L.size by omega),
    sum_eq_ok (show L.reserved + L.bitmap + Header.words < 1 <<< 64 by rw [Header.words]; omega),
    difference_eq_ok (show Header.words ≤ L.heap by rw [Header.words]; omega),
    address_eq_ok (show L.reserved + L.bitmap + Header.words < 1 <<< 30 by
      rw [Header.words]; omega),
    address_eq_ok (show L.reserved + L.bitmap < 1 <<< 30 by omega), address_eq_ok hlt,
    header_eq_ok Tag.free (show L.heap - Header.words ≤ Header.maxSize by
      rw [Header.words]; omega), bind, Except.bind]
  rw [if_pos (by rw [Header.words]; omega)]
  rfl

/-- **Placing a heap.** All checks on the way from an arena to a heap pass. -/
theorem intoHeap_eq (a : Arena) (start : Pointer) : intoHeap a start = .ok (a.intoHeap start) := by
  unfold intoHeap Arena.intoHeap
  rw [place_eq]
  rcases Layout.place a.length a.addressable start with e | ⟨L, hL⟩
  · rfl
  · show (fresh L _ >>= fun h => _) = _
    rw [fresh_eq]
    rfl

/-- A size that was read is far from 64 bits. -/
theorem lt_of_sizeAt {h : Heap L} {b n : Nat} (hn : h.sizeAt b = .ok n) : n < 1 <<< 24 :=
  Nat.lt_succ_of_le (Heap.le_of_sizeAt hn)

/-! ### Requests -/

section Requests

variable {h : Heap L} {blocks : List Nat} {fit : Fit} {tag : Tag} {size : Nat}

theorem writeHeader_eq (h : Heap L) (block : Nat) (tag : Tag) (hsize : size ≤ Header.maxSize) :
    writeHeader block tag size h = unchecked (HeapM.writeHeader block tag size) h := by
  unfold writeHeader
  rw [check_bind (header_eq_ok tag hsize)]
  rfl

/-- A block that is large enough is cut, or not, within its own words. -/
theorem award_eq (hw : h.Within fit) (hsize : size ≤ h.sizeOf fit.block) (tag : Tag) :
    award tag size fit h = unchecked (HeapM.award tag size fit) h := by
  obtain ⟨hlow, hmin, hhigh, _⟩ := hw
  rw [Layout.heapEnd] at hhigh
  have hlt := L.size_lt
  have hmax := h.sizeOf_le fit.block
  have hmaxSize : Header.maxSize = 16777215 := rfl
  unfold award HeapM.award
  refine unchecked_bind fun next h' hnext => ?_
  obtain ⟨-, rfl⟩ := Prod.mk.inj hnext
  refine sizeAt_bind (by omega) (by omega) ?_
  rw [check_bind (sum_sum_eq_ok (by omega) (by decide) (by decide))]
  by_cases hcut : h.sizeOf fit.block < size + Header.words + Header.minSize
  · -- Handed out whole, the block keeps a size that its header held before.
    rw [if_pos hcut, if_pos hcut]
    exact unchecked_bind fun _ h' _ => writeHeader_eq h' _ tag hmax
  · -- Both parts are smaller than the block was.
    rw [if_neg hcut, if_neg hcut]
    rw [Header.words, Header.minSize] at hcut
    have hleft : (do difference (← difference (h.sizeOf fit.block) size) Header.words) =
        .ok (h.sizeOf fit.block - size - Header.words) := by
      show (difference (h.sizeOf fit.block) size >>= fun n => difference n Header.words) = _
      rw [difference_eq_ok hsize]
      exact difference_eq_ok (by rw [Header.words]; omega)
    rw [check_bind (sum_sum_eq_ok (by omega) (by omega) (by decide)), check_bind hleft]
    refine bind_congr (writeHeader_eq h _ tag (by omega)) fun _ h₁ _ => ?_
    refine bind_congr (writeHeader_eq h₁ _ _ (by omega)) fun _ h₂ _ => ?_
    refine unchecked_bind fun _ h₃ _ => ?_
    rw [check_bind (address_eq_ok (by rw [Header.words]; omega))]

/-- **Requests.** On a heap in order the block that the search finds is large enough. -/
theorem tryAllocate_eq (ho : h.Ordered blocks) (tag : Tag) (size : Nat) :
    tryAllocate tag size h = unchecked (HeapM.tryAllocate tag size) h := by
  unfold tryAllocate HeapM.tryAllocate
  refine unchecked_bind fun found h' hfound => ?_
  rw [HeapM.ask_eq_ok (HeapM.search_eq_ok ho _)] at hfound
  obtain ⟨hfit, rfl⟩ := Prod.mk.inj hfound
  rw [Except.ok.injEq] at hfit
  cases found with
  | none => rfl
  | some fit =>
    obtain ⟨front, back, hf⟩ := Heap.Fitting.of_firstFit hfit
    have hlt := (ho.inHeap hf.mem_free.1).lt
    refine bind_congr (award_eq (hf.within ho) hf.size_le tag) fun _ h₁ _ => ?_
    refine unchecked_bind fun _ h₂ _ => ?_
    refine unchecked_bind fun _ h₃ _ => ?_
    refine unchecked_bind fun n h₄ _ => ?_
    rw [check_bind (address_eq_ok hlt)]
    rfl

theorem tryAllocate_apply {h' : Heap L} {o : Option Grant} (ho : h.Ordered blocks)
    (hrun : HeapM.tryAllocate tag size h = (.ok o, h')) :
    tryAllocate tag size h = (.ok o, h') := by
  rw [tryAllocate_eq ho]
  exact unchecked_apply hrun

end Requests

/-! ### Marking -/

section Marking

variable {h : Heap L} {pending : List VAddr} {marked : Nat}

/-- An index in the arena and a size from a header have a sum that fits 64 bits. -/
theorem payloadAt_eq (h : Heap L) {block : Nat} (hb : block < L.size) :
    payloadAt h block = plain (h.payloadAt block) := by
  have hlt := L.size_lt
  unfold payloadAt Heap.payloadAt
  cases hn : h.sizeAt block with
  | error fault => rfl
  | ok n =>
    have := lt_of_sizeAt hn
    show (sum block n >>= fun _ => plain (h.slice block n)) = _
    rw [sum_eq_ok (by omega)]
    rfl

/-- **Marking.** Each block that is visited has its bit cleared, so there is a bound on their
    number. -/
theorem trace_eq (hmarked : marked + h.bitCount < 1 <<< 64) :
    trace h pending marked =
      (plain (h.trace pending marked).1, (h.trace pending marked).2) := by
  induction h, pending, marked using Heap.trace.induct with
  | case1 h marked =>
    rw [trace, Heap.trace]
    rfl
  | case2 h marked v pending hal hin hbit cleared payload hpay ih =>
    -- The bit that is cleared pays for the block that is counted.
    have hless : cleared.bitCount < h.bitCount := h.bitCount_clearBit_lt hin hbit
    have hread : payloadAt cleared v.index = .ok payload := by
      rw [payloadAt_eq _ hin.lt_size, hpay]
      rfl
    rw [trace, if_pos hal, if_pos hin, if_pos hbit, Heap.trace_visit hal hin hbit hpay,
      sum_eq_ok (by omega)]
    simp only [hread, cleared]
    exact ih (by omega)
  | case3 h marked v pending hal hin hbit cleared fault hpay =>
    have hread : payloadAt cleared v.index = .error (.fault fault) := by
      rw [payloadAt_eq _ hin.lt_size, hpay]
      rfl
    have hless : cleared.bitCount < h.bitCount := h.bitCount_clearBit_lt hin hbit
    rw [trace, if_pos hal, if_pos hin, if_pos hbit, Heap.trace, if_pos hal, if_pos hin, if_pos hbit,
      sum_eq_ok (by omega)]
    simp only [hread, hpay, cleared]
    rfl
  | case4 h marked v pending hal hin hbit ih =>
    rw [trace, if_pos hal, if_pos hin, if_neg hbit, Heap.trace, if_pos hal, if_pos hin, if_neg hbit]
    exact ih hmarked
  | case5 h marked v pending hal hin =>
    rw [trace, if_pos hal, if_neg hin, Heap.trace, if_pos hal, if_neg hin]
    rfl
  | case6 h marked v pending hal ih =>
    rw [trace, if_neg hal, Heap.trace, if_neg hal]
    exact ih hmarked

/-- Every block that is counted has its bit cleared. -/
theorem marked_add_bitCount_le {h' : Heap L} {n : Nat}
    (hrun : h.trace pending marked = (.ok n, h')) : n + h'.bitCount ≤ marked + h.bitCount := by
  induction h, pending, marked using Heap.trace.induct with
  | case1 h marked =>
    rw [Heap.trace] at hrun
    cases hrun
    exact Nat.le_refl _
  | case2 h marked v pending hal hin hbit cleared payload hpay ih =>
    have hless : cleared.bitCount < h.bitCount := h.bitCount_clearBit_lt hin hbit
    rw [Heap.trace_visit hal hin hbit hpay] at hrun
    have := ih hrun
    omega
  | case3 h marked v pending hal hin hbit cleared fault hpay =>
    rw [Heap.trace, if_pos hal, if_pos hin, if_pos hbit] at hrun
    simp only [show (h.clearBit v.index).payloadAt v.index = _ from hpay] at hrun
    cases hrun
  | case4 h marked v pending hal hin hbit ih =>
    rw [Heap.trace, if_pos hal, if_pos hin, if_neg hbit] at hrun
    exact ih hrun
  | case5 h marked v pending hal hin =>
    rw [Heap.trace, if_pos hal, if_neg hin] at hrun
    cases hrun
  | case6 h marked v pending hal ih =>
    rw [Heap.trace, if_neg hal] at hrun
    exact ih hrun

/-- Marking from several roots counts each block once, so the total has the same bound. -/
theorem markAll_eq {candidates : List VAddr} {traces : List RootTrace} {h' : Heap L} {total : Nat}
    (hrun : h.markAll candidates = (traces, .ok (), h')) (htotal : total + h.bitCount < 1 <<< 64) :
    markAll total candidates h =
      (.ok (traces, total + traces.foldr (fun t n => t.marked + n) 0), h') := by
  induction candidates generalizing h traces total with
  | nil =>
    cases hrun
    rfl
  | cons root roots ih =>
    rw [Heap.markAll] at hrun
    rcases hmark : HeapM.mark root h with ⟨_ | marked, h₁⟩
    · rw [hmark] at hrun
      cases hrun
    · rcases hlater : h₁.markAll roots with ⟨traces', outcome, h₂⟩
      rw [hmark] at hrun
      simp only [hlater] at hrun
      cases hrun
      have hle : marked + h₁.bitCount ≤ 0 + h.bitCount := marked_add_bitCount_le hmark
      have hfirst : mark root h = (.ok marked, h₁) := by
        have heq : mark root h = unchecked (HeapM.mark root) h := trace_eq (by omega)
        rw [heq]
        exact unchecked_apply hmark
      rw [markAll, bind_apply hfirst, check_bind (sum_eq_ok (by omega)),
        bind_apply (ih hlater (by omega)), List.foldr_cons, ← Nat.add_assoc]
      rfl

end Marking

/-! ### Sweeping -/

section Sweeping

variable {h h₀ : Heap L} {before done ahead : List Nat} {block size stop : Nat} {last : Option Nat}
  {r : SweepReport}

/-- Making a block free space writes sizes of parts of the heap. -/
theorem release_eq (hend : block + size ≤ L.heapEnd) (hsize : size ≤ Header.maxSize)
    (hlast : ∀ f ∈ last, L.heapStart < f ∧ f < L.size) (hblocks : r.freeBlocks < 1 <<< 32)
    (hwords : r.freeWords < 1 <<< 32) (h : Heap L) :
    release block size last r h = unchecked (HeapM.release block size last r) h := by
  have hlt := L.size_lt
  have hmax : Header.maxSize = 16777215 := rfl
  have hheap := L.heapEnd_le
  rw [Layout.heapEnd] at hend hheap
  rw [Header.words] at hheap
  have haddress : address block = .ok (VAddr.ofIndex block) := address_eq_ok (by omega)
  have hseparate : separate r size = .ok (r.separate size) := by
    unfold separate
    rw [sum_eq_ok (by omega), sum_eq_ok (by omega)]
    rfl
  unfold release HeapM.release
  refine unchecked_bind fun _ h₁ _ => ?_
  refine bind_congr (writeHeader_eq h₁ _ _ hsize) fun _ h₂ _ => ?_
  cases last with
  | none =>
    refine (check_bind haddress).trans ?_
    refine unchecked_bind fun _ h₃ _ => ?_
    rw [check_bind hseparate]
    rfl
  | some f =>
    obtain ⟨hlow, hf⟩ := hlast f rfl
    refine sizeAt_bind (by omega) (by omega) ?_
    have hbefore := h₂.sizeOf_le f
    rw [check_bind (sum_sum_eq_ok (by omega) (by omega) (by decide))]
    by_cases htouch : f + h₂.sizeOf f + Header.words = block
    · -- The merged block lies between `f` and the heap's end, which bounds its size.
      rw [if_pos htouch, if_pos htouch,
        check_bind (sum_sum_eq_ok (by omega) (by omega) (by decide))]
      rw [Header.words] at htouch
      refine bind_congr (writeHeader_eq h₂ _ _ (by rw [Header.words]; omega)) fun _ h₃ _ => ?_
      have habsorb : absorb r size = .ok (r.absorb size) := by
        unfold absorb
        rw [sum_eq_ok (by rw [Header.words]; omega)]
        show (sum r.freeWords (size + Header.words) >>= fun n => _) = _
        rw [sum_eq_ok (by rw [Header.words]; omega)]
        rfl
      rw [check_bind habsorb]
      rfl
    · rw [if_neg htouch, if_neg htouch, check_bind haddress]
      refine unchecked_bind fun _ h₃ _ => ?_
      rw [check_bind hseparate]
      rfl

theorem sweepBlock_eq (hend : block + size ≤ L.heapEnd) (hsize : size ≤ Header.maxSize)
    (hlast : ∀ f ∈ last, L.heapStart < f ∧ f < L.size) (hr : r.Small) (h : Heap L) :
    sweepBlock block size last r h = unchecked (HeapM.sweepBlock block size last r) h := by
  obtain ⟨hlive, hreclaimed, hblocks, hwords⟩ := hr
  unfold sweepBlock HeapM.sweepBlock
  refine unchecked_bind fun bit h₁ _ => ?_
  refine unchecked_bind fun tag h₂ _ => ?_
  by_cases hspare : (!bit && tag != Tag.free) = true
  · rw [if_pos hspare, if_pos hspare]
    refine unchecked_bind fun _ h₃ _ => ?_
    have hsurvived : survived r = .ok r.survived := by
      unfold survived
      rw [sum_eq_ok (by omega)]
      rfl
    rw [check_bind hsurvived]
    rfl
  · have hreclaim : (if tag = Tag.free then .ok r else reclaim r) =
        .ok (if tag = Tag.free then r else r.reclaim) := by
      unfold reclaim
      rw [sum_eq_ok (by omega)]
      split <;> rfl
    rw [if_neg hspare, if_neg hspare, check_bind hreclaim]
    split
    · exact release_eq hend hsize hlast hblocks hwords h₂
    · exact release_eq (r := r.reclaim) hend hsize hlast hblocks hwords h₂

/-- What a sweep has counted so far is bounded by the words behind it. -/
theorem small_of_swept (hw : h₀.Swept before stop h done last r) (hstop : stop ≤ L.heapEnd) :
    r.Small := by
  have hlt := L.size_lt
  rw [Layout.heapEnd] at hstop
  have hbefore := hw.gathered.tiles_before.length_le
  have hdone := hw.gathered.tiles.length_le
  have hsum := hw.gathered.tiles.sum_words
  have hwords : ((h₀.spacesOf done).map h.sizeOf).sum ≤ (done.map h.sizeOf).sum :=
    (List.filter_sublist.map h.sizeOf).sum_le_sum fun _ _ => Nat.zero_le _
  have hspaces : (h₀.spacesOf done).length ≤ done.length := List.length_filter_le ..
  refine ⟨?_, ?_, ?_, ?_⟩
  · rw [hw.counted.live]
    exact Nat.lt_of_le_of_lt List.countP_le_length (by omega)
  · rw [hw.counted.reclaimed]
    exact Nat.lt_of_le_of_lt List.countP_le_length (by omega)
  · rw [hw.counted.freeBlocks]
    omega
  · rw [hw.counted.freeWords]
    omega

/-- **Sweeping.** As long as the blocks behind the sweep and those ahead tile the heap, all checks
    pass. -/
theorem sweepFrom_eq (hw : h₀.Swept before stop h done last r)
    (ht : h₀.TilesTo stop ahead L.heapEnd) :
    sweepFrom (stop + Header.words) last r h =
      unchecked (HeapM.sweepFrom (stop + Header.words) last r) h := by
  induction ahead generalizing before stop h done last r with
  | nil =>
    have hstop : stop = L.heapEnd := ht
    rw [sweepFrom, HeapM.sweepFrom, if_neg (by omega), if_neg (by omega)]
    rfl
  | cons b bs ih =>
    have hbounds := ht.bounds (List.mem_cons_self ..)
    have hsmall := small_of_swept hw (by omega)
    obtain ⟨hb, _, hrest⟩ := ht
    rw [Header.words] at hb
    obtain ⟨hlow, hin, _, _⟩ := hw.gathered.inHeap_next hb hbounds.2.1 hbounds.2.2
    have hsize := (hw.gathered.next_eq hb hbounds.2.1 hbounds.2.2).1
    have hmax := h₀.sizeOf_le b
    have hmaxSize : Header.maxSize = 16777215 := rfl
    have hlt : L.heapEnd < 1 <<< 30 := L.size_lt
    -- The last free block is one of those behind the sweep.
    have hlast : ∀ f ∈ last, L.heapStart < f ∧ f < L.size := fun f hf => by
      have := hw.gathered.tiles.bounds (hw.threaded.mem_of_last hf).1
      have := hin.lt_size
      exact ⟨by omega, by omega⟩
    obtain ⟨h', done', last', r', hrun, hw'⟩ := hw.step hb hbounds.2.1 hbounds.2.2
    rw [sweepFrom, HeapM.sweepFrom, Header.words, ← hb, if_pos (by omega), if_pos (by omega)]
    refine sizeAt_bind (by omega) (Nat.le_of_lt hin.lt_size) ?_
    rw [hsize]
    refine bind_congr (sweepBlock_eq hbounds.2.2 hmax hlast hsmall h) fun swept h₁ hswept => ?_
    rw [hrun] at hswept
    cases hswept
    exact (check_bind (sum_sum_eq_ok (by omega) (by omega) (by decide))).trans (ih hw' hrest)

/-- A sweep of a heap whose blocks tile it. -/
theorem sweep_eq {blocks : List Nat} (ht : h₀.TilesTo L.heapStart blocks L.heapEnd) :
    sweep h₀ = unchecked HeapM.sweep h₀ := by
  unfold sweep HeapM.sweep
  refine bind_congr (sweepFrom_eq (.initial h₀) ht) fun swept h₁ _ => ?_
  exact unchecked_bind fun _ h₂ _ => rfl

end Sweeping

/-! ### Collections -/

section Collections

variable {h : Heap L} {blocks : List Nat} {roots : Roots}

/-- No more bits are set than there are heap words. -/
theorem bitCount_le (h : Heap L) : h.bitCount ≤ L.heap := by
  have hle := List.countP_le_length (p := fun k => h.bit (L.heapStart + k)) (l := List.range L.heap)
  rwa [List.length_range] at hle

/-- **Collections.** A collection of a heap in order forms no number that fails a check. -/
theorem collect_eq (ho : h.Ordered blocks) (hroots : roots.Regular L) :
    collect roots h = (.ok (h.collect roots).1, (h.collect roots).2) := by
  obtain ⟨visited, traces, hmark, _, _, hvis⟩ := Heap.markAll_eq ho.contained hroots
  have htiles := ho.tiles_clearBits fun c hc => ((hvis c).1 hc).allocated.1
  obtain ⟨g, _, r, hsweep, _⟩ := HeapM.sweep_apply htiles
  have htotal : 0 + h.bitCount < 1 <<< 64 := by
    have := bitCount_le h
    have := L.addressable
    omega
  have hswept : sweep (h.clearBits visited) = (.ok r, g) := by
    rw [sweep_eq htiles]
    exact unchecked_apply hsweep
  unfold collect
  rw [bind_apply (markAll_eq hmark htotal), Heap.collect_of_marked hmark hsweep, Nat.zero_add]
  refine (bind_apply hswept).trans ?_
  exact bind_apply (unchecked_apply (HeapM.change_apply _ _))

end Collections

/-! ### Looking at a heap -/

section Looking

variable {h : Heap L} {blocks : List Nat}

theorem lt_of_describe {index : Nat} {b : BlockInfo} (hb : h.describe index = .ok b) :
    b.size < 1 <<< 24 := by
  unfold Heap.describe at hb
  cases hn : h.sizeAt index with
  | error fault =>
    rw [hn] at hb
    cases hb
  | ok n =>
    cases ht : h.tagAt index with
    | error fault =>
      rw [hn, ht] at hb
      cases hb
    | ok tag =>
      cases hbit : h.bitAt index with
      | error fault =>
        rw [hn, ht, hbit] at hb
        cases hb
      | ok bit =>
        rw [hn, ht, hbit] at hb
        cases hb
        exact lt_of_sizeAt hn

/-- A walk looks at indices in the arena and sizes from headers, on any heap. -/
theorem walkFrom_eq (h : Heap L) (index : Nat) (found : Array BlockInfo) :
    walkFrom h index found = plain (h.walkFrom index found) := by
  induction index, found using Heap.walkFrom.induct h with
  | case1 index found hlt b hb ih =>
    have hsize := lt_of_describe hb
    have hend : L.heapEnd < 1 <<< 30 := L.size_lt
    rw [walkFrom, Heap.walkFrom, if_pos hlt, if_pos hlt, hb]
    show (sum index b.size >>= fun s => sum s Header.words >>= fun _ => address index >>= _) = _
    rw [sum_eq_ok (by omega)]
    show (sum (index + b.size) Header.words >>= fun _ => address index >>= _) = _
    rw [sum_eq_ok (by rw [Header.words]; omega), address_eq_ok (by omega)]
    exact ih
  | case2 index found hlt fault hb =>
    rw [walkFrom, Heap.walkFrom, if_pos hlt, if_pos hlt, hb]
    rfl
  | case3 index found hlt =>
    rw [walkFrom, Heap.walkFrom, if_neg hlt, if_neg hlt]
    rfl

theorem blocks_eq (h : Heap L) : Checked.blocks h = plain h.blocks := walkFrom_eq h _ _

/-- Counting blocks adds up to the words that they take. -/
theorem foldlM_add (found : List BlockInfo) (u : Usage)
    (hwords : u.freeBlocks + u.usedBlocks + u.freeWords + u.usedWords +
      ((found.map BlockInfo.size).sum + found.length * Header.words) < 1 <<< 64) :
    found.foldlM add u = .ok (found.foldl Usage.add u) := by
  induction found generalizing u with
  | nil => rfl
  | cons b bs ih =>
    rw [List.map_cons, List.sum_cons, List.length_cons, Header.words] at hwords
    have hadd : add u b = .ok (u.add b) := by
      unfold add Usage.add
      split
      · rw [sum_eq_ok (by omega), sum_eq_ok (by omega)]
        rfl
      · rw [sum_eq_ok (by omega), sum_eq_ok (by omega)]
        rfl
    rw [List.foldlM_cons, hadd, List.foldl_cons]
    refine ih _ ?_
    unfold Usage.add
    rw [Header.words]
    split
    · simp only
      omega
    · simp only
      omega

/-- **Usage.** The blocks of a heap in order take no more words than there are. -/
theorem usage_eq (ho : h.Ordered blocks) : usage h = plain h.usage := by
  have hend : L.heapEnd < 1 <<< 30 := L.size_lt
  have hle : L.heapStart ≤ L.heapEnd := ho.tiles.start_le
  have hsum := ho.tiles.sum_words
  have hwalk := h.blocks_eq_ok (Heap.tiles_iff.2 ho.tiles)
  unfold usage Heap.usage
  rw [difference_eq_ok hle, blocks_eq, hwalk]
  show (blocks.map h.info).foldlM add _ = Except.ok (Array.foldl _ _ _ _ _)
  rw [List.foldl_toArray]
  have hheap : L.heapEnd - L.heapStart = L.heap := Nat.add_sub_cancel_left ..
  rw [hheap]
  -- What is added up are the words of the blocks, which tile the heap.
  refine foldlM_add _ _ ?_
  have hsizes : ((blocks.map h.info).map BlockInfo.size).sum = (blocks.map h.sizeOf).sum := by
    rw [List.map_map]
    rfl
  rw [hsizes, List.length_map]
  show 0 + 0 + 0 + 0 + _ < _
  omega

end Looking

/-! ### Steps -/

section Steps

variable {h : Heap L} {blocks : List Nat} {roots : Roots} {s : Step}

theorem lt_of_blockIndex {p : Pointer} {i : Nat} (hi : L.blockIndex p = .ok i) :
    i < L.heapEnd := by
  unfold Layout.blockIndex at hi
  split at hi
  · split at hi
    · cases hi
      omega
    · cases hi
  · cases hi

/-- The payload that a pointer names is found without overflow, if there is one. -/
theorem payloadRange_eq (h : Heap L) (p : Pointer) :
    payloadRange h p = plain (h.payloadRange p) := by
  unfold payloadRange Heap.payloadRange
  cases hi : L.blockIndex p with
  | error fault => rfl
  | ok i =>
    have hlt := lt_of_blockIndex hi
    have hend : L.heapEnd < 1 <<< 30 := L.size_lt
    show (plain (h.sizeAt i) >>= fun n => sum i n >>= fun stop =>
        if stop ≤ L.size then pure (i, n) else throw (.fault .wordOutside)) =
      plain (h.sizeAt i >>= fun n => if i + n ≤ L.size then pure (i, n) else throw .wordOutside)
    cases hn : h.sizeAt i with
    | error fault => rfl
    | ok n =>
      have := lt_of_sizeAt hn
      show (sum i n >>= fun stop => _) = plain (if i + n ≤ L.size then _ else _)
      rw [sum_eq_ok (by omega)]
      show (if i + n ≤ L.size then _ else _) = _
      split <;> rfl

/-- A store hits a word of the arena, or none at all. -/
theorem store_eq (ho : h.Ordered blocks) {b : Nat} (hb : h.Allocated b) (k : Nat) (w : Word) :
    store (.ofIndex b) k w h = unchecked (HeapM.store (.ofIndex b) k w) h := by
  obtain ⟨hlow, hmin, hhigh⟩ := ho.bounds (ho.allocated_iff.1 hb).1
  have hend : L.heapEnd < 1 <<< 30 := L.size_lt
  -- The payload of an allocated block lies in the heap, so the range is found.
  have hrange := Heap.payloadRange_eq_ok hlow hb.1 hhigh
  have hask : ask (payloadRange · (.ofIndex b)) h =
      unchecked (HeapM.ask (·.payloadRange (.ofIndex b))) h :=
    congrArg (·, h) (payloadRange_eq h (.ofIndex b))
  unfold store HeapM.store
  refine bind_congr hask fun range h' hread => ?_
  rw [HeapM.ask_eq_ok hrange] at hread
  cases hread
  by_cases hk : k < h.sizeOf b
  · show (if k < h.sizeOf b then _ else _ : CheckedM L Bool) h =
      unchecked (if k < h.sizeOf b then _ else _) h
    rw [if_pos hk, if_pos hk, check_bind (sum_eq_ok (by omega))]
    rfl
  · show (if k < h.sizeOf b then _ else _ : CheckedM L Bool) h =
      unchecked (if k < h.sizeOf b then _ else _) h
    rw [if_neg hk, if_neg hk]
    rfl

/-- A second attempt adds up what is free once it is refused. -/
theorem retry_eq (ho : h.Ordered blocks) (tag : Tag) (size : Nat) :
    ∃ o, h.retry tag size = (.ok o, (h.retry tag size).2) ∧
      retry tag size h = (.ok o, (h.retry tag size).2) := by
  unfold retry Heap.retry
  rcases ho.counters_tryAllocate tag size with hrun | ⟨g, h', hrun, _⟩
  · have hcount : h.countFailure.Ordered blocks := ho.of_words rfl rfl
    obtain ⟨u, hu⟩ := hcount.exists_usage
    have husage : ask usage h.countFailure = (.ok u, h.countFailure) := by
      show (usage h.countFailure, h.countFailure) = _
      rw [usage_eq hcount, hu]
      rfl
    simp only [hrun, hu]
    refine ⟨_, rfl, ?_⟩
    rw [bind_apply (tryAllocate_apply ho hrun)]
    exact bind_apply husage
  · simp only [hrun]
    exact ⟨_, rfl, bind_apply (tryAllocate_apply ho hrun)⟩

/-- **Requests that may collect.** -/
theorem allocate_eq (ho : h.Ordered blocks) (hroots : roots.Regular L) (tag : Tag) (size : Nat) :
    allocate tag size roots h =
      (.ok (h.allocate tag size roots).1, (h.allocate tag size roots).2) := by
  unfold allocate
  by_cases htag : tag = Tag.free
  · rw [if_pos htag, h.allocate_of_reserved htag]
    rfl
  rw [if_neg htag]
  rcases ho.counters_tryAllocate tag size with hrun | ⟨g, h', hrun, _⟩
  · obtain ⟨traces, r, m, mid, hcollect, hc, _⟩ := ho.counters_collect hroots
    obtain ⟨o, hretry, hretried⟩ := retry_eq hc.ordered tag size
    have hcollected := collect_eq ho hroots
    rw [hcollect] at hcollected
    rw [Heap.allocate_of_collected htag hrun hcollect, hretry]
    refine (bind_apply (tryAllocate_apply ho hrun)).trans ?_
    refine (bind_apply hcollected).trans ?_
    exact bind_apply hretried
  · rw [Heap.allocate_of_granted htag hrun]
    exact bind_apply (tryAllocate_apply ho hrun)

/-- **One step.** A step of regular use passes all checks. -/
theorem perform_eq (ho : h.Ordered blocks) (hs : s.Regular h) :
    perform s h = (.ok (s.answer h), s.apply h) := by
  unfold Step.answer Step.apply
  cases s with
  | tryAllocate tag size =>
    rcases ho.counters_tryAllocate tag size with hrun | ⟨g, h', hrun, _⟩
    · simp only [hrun]
      exact bind_apply (tryAllocate_apply ho hrun)
    · simp only [hrun]
      exact bind_apply (tryAllocate_apply ho hrun)
  | allocate tag size roots => exact bind_apply (allocate_eq ho hs tag size)
  | collect roots => exact bind_apply (collect_eq ho hs)
  | store b k w =>
    obtain ⟨stored, h', hrun⟩ :
        ∃ stored h', HeapM.store (.ofIndex b) k w h = (.ok stored, h') := by
      rw [ho.store_apply hs]
      split <;> exact ⟨_, _, rfl⟩
    simp only [hrun]
    exact bind_apply ((store_eq ho hs k w).trans (unchecked_apply hrun))
  | storeReserved k w =>
    obtain ⟨stored, h', hrun⟩ : ∃ stored h', HeapM.storeReserved k w h = (.ok stored, h') := by
      rw [HeapM.storeReserved_apply]
      split <;> exact ⟨_, _, rfl⟩
    simp only [hrun]
    exact bind_apply (unchecked_apply hrun)

/-- **A run.** All checks of a run of regular use pass. -/
theorem run_eq (hr : h.Reached) {steps : List Step} (hsteps : h.Allows steps) :
    run steps h = (.ok (h.answers steps), h.run steps) := by
  induction steps generalizing h with
  | nil => rfl
  | cons s steps ih =>
    obtain ⟨hs, hrest⟩ := hsteps
    obtain ⟨blocks, ho⟩ := hr.ordered
    refine (bind_apply (perform_eq ho hs)).trans ?_
    exact bind_apply (ih (hr.step hs) hrest)

end Steps

end Checked

end ArenaHeap
