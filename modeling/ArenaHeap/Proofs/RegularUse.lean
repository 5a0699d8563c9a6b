import ArenaHeap.Proofs.Allocating

namespace ArenaHeap

/-!
# Regular use keeps a heap in order

A step of regular use does at most three things to a heap: it collects, it hands out a block, and
it stores a word. `Heap.Ordered.stepped` takes a step apart like that, and every law about
regular use is read off from it.

* `Step.granted`, `Step.collected` — the block that a step hands out and the roots of the
  collection that it completes.
* `Heap.Ordered.step` — a step keeps a heap in order.
* `Heap.Reached.ordered` — so every heap in regular use is in order.
-/

variable {L : Layout}

/-! ### Payloads by pointer -/

theorem Pointer.index?_ofIndex {i n : Nat} (hi : i < n) (hn : n < 1 <<< 30) :
    (Pointer.ofIndex i).index? n = some i := by
  have hoffset : (Pointer.ofIndex i).offset.toNat = i * 4 := by
    show (UInt64.ofNat (i * Word.bytes)).toNat = i * 4
    rw [UInt64.toNat_ofNat', Word.bytes]
    omega
  unfold Pointer.index?
  rw [hoffset, Word.bytes, if_pos (by omega), Nat.mul_div_cancel i (by decide)]

/-- The payload of a block is where its pointer leads, as long as its header says, if that much is
    in the arena. -/
theorem Heap.payloadRange_of_blockIndex (h : Heap L) {p : Pointer} {i : Nat}
    (hi : L.blockIndex p = .ok i) (h₀ : 0 < i) (h₁ : i ≤ L.size) : h.payloadRange p =
      if i + h.sizeOf i ≤ L.size then .ok (i, h.sizeOf i) else .error .wordOutside := by
  rw [payloadRange, hi]
  show (do
    let n ← h.sizeAt i
    if i + n ≤ L.size then return (i, n) else throw Fault.wordOutside) = _
  rw [h.sizeAt_eq_ok h₀ h₁]
  rfl

section Payload

variable {h : Heap L} {b : Nat} (hlow : L.heapStart < b) (hb : L.InHeap b)
  (hend : b + h.sizeOf b ≤ L.heapEnd)

include hlow hb hend

/-- The payload of a block in the heap is where the block is, as long as its header says. -/
theorem Heap.payloadRange_eq_ok : h.payloadRange (.ofIndex b) = .ok (b, h.sizeOf b) := by
  have hlt := hb.lt_size
  have hindex : L.blockIndex (.ofIndex b) = .ok b := by
    unfold Layout.blockIndex
    rw [Pointer.index?_ofIndex hlt L.size_lt]
    exact if_pos ⟨hlow, hb.2⟩
  rw [h.payloadRange_of_blockIndex hindex (by omega) (Nat.le_of_lt hlt)]
  exact if_pos hend

theorem Heap.payload_eq_ok : h.payload (.ofIndex b) = .ok (h.payloadOf b).toArray := by
  rw [payload, payloadRange_eq_ok hlow hb hend]
  exact h.slice_eq_ok hend

/-- A store to a block in the heap writes a word of its payload, or none at all. -/
theorem HeapM.store_apply (k : Nat) (w : Word) :
    store (.ofIndex b) k w h =
      if k < h.sizeOf b then (.ok true, h.put (b + k) w) else (.ok false, h) := by
  have hrange : ask (·.payloadRange (.ofIndex b)) h = (.ok (b, h.sizeOf b), h) :=
    ask_eq_ok (Heap.payloadRange_eq_ok hlow hb hend)
  unfold store
  rw [bind_apply hrange]
  by_cases hk : k < h.sizeOf b
  · show (if k < h.sizeOf b then _ else _ : HeapM L Bool) h = _
    rw [if_pos hk, if_pos hk]
    rfl
  · show (if k < h.sizeOf b then _ else _ : HeapM L Bool) h = _
    rw [if_neg hk, if_neg hk]
    rfl

end Payload

section Allocated

variable {h : Heap L} {blocks : List Nat} {b : Nat} (ho : h.Ordered blocks) (hb : h.Allocated b)

include ho hb

theorem Heap.Ordered.payload_eq_ok :
    h.payload (.ofIndex b) = .ok (h.payloadOf b).toArray := by
  have hbound := ho.bounds (ho.allocated_iff.1 hb).1
  exact Heap.payload_eq_ok hbound.1 hb.1 hbound.2.2

theorem Heap.Ordered.store_apply (k : Nat) (w : Word) :
    HeapM.store (.ofIndex b) k w h =
      if k < h.sizeOf b then (.ok true, h.put (b + k) w) else (.ok false, h) := by
  have hbound := ho.bounds (ho.allocated_iff.1 hb).1
  exact HeapM.store_apply hbound.1 hb.1 hbound.2.2 k w

end Allocated

/-- The reserved words as a whole, from what they are one by one. -/
theorem Heap.reserved_eq_extract {h : Heap L} {words : Vector Word L.size}
    (hword : ∀ j, j < L.reserved → h.word j = words[j]?.getD 0) :
    h.reserved = words.toArray.extract 0 L.reserved := by
  have hle : L.reserved ≤ L.size := by
    rw [Layout.size]
    omega
  apply Array.ext
  · simp [reserved]
  · intro j hj _
    have hlt : j < L.reserved := by
      simp only [reserved, Array.size_extract] at hj
      omega
    have hsize : j < L.size := by omega
    have heq := hword j hlt
    simpa [word, hsize, reserved] using heq

theorem HeapM.storeReserved_apply (h : Heap L) (k : Nat) (w : Word) :
    storeReserved k w h = if k < L.reserved then (.ok true, h.put k w) else (.ok false, h) := by
  unfold storeReserved
  by_cases hk : k < L.reserved
  · rw [if_pos hk, if_pos hk]
    rfl
  · rw [if_neg hk, if_neg hk]
    rfl

/-! ### What a step is made of -/

namespace Step

/-- The block that a step hands out, if it does. -/
def granted (h : Heap L) : Step → Option Grant
  | tryAllocate tag size =>
    match (HeapM.tryAllocate tag size h).1 with
    | .ok g => g
    | .error _ => none
  | allocate tag size roots =>
    match (h.allocate tag size roots).1.outcome with
    | .ok (.ok g) => some g
    | _ => none
  | collect _ => none
  | store _ _ _ => none
  | storeReserved _ _ => none

/-- The roots of the collection that a step completes, if it does. A request collects before it
    hands out a block, while the heap is still as the step found it. -/
def collected (h : Heap L) : Step → Option Roots
  | allocate tag size roots =>
    match (h.allocate tag size roots).1.collection with
    | some ⟨_, .ok _⟩ => some roots
    | _ => none
  | collect roots =>
    match (h.collect roots).1.outcome with
    | .ok _ => some roots
    | .error _ => none
  | tryAllocate _ _ => none
  | store _ _ _ => none
  | storeReserved _ _ => none

end Step

namespace Heap

/-- A heap `h` with its blocks becomes `m` with blocks `mid` in the collection from some roots, if
    there is one. -/
def Settled (h : Heap L) (blocks : List Nat) : (roots : Option Roots) → (m : Heap L) →
    (mid : List Nat) → Prop
  | none, m, mid => m = h ∧ mid = blocks
  | some roots, m, mid => Collected h roots blocks m mid

/-- A heap `m` becomes `h'` in a step that hands out no block: one word at most is stored, in an
    allocated block or in the reserved part. -/
inductive Kept (m : Heap L) : (s : Step) → (h' : Heap L) → Prop
  | same {s : Step} {h' : Heap L} : (∀ b k w, s = .store b k w → m.sizeOf b ≤ k) →
      h'.words = m.words → h'.heads = m.heads → Kept m s h'
  | store {b k : Nat} (w : Word) : m.Allocated b → k < m.sizeOf b →
      Kept m (.store b k w) (m.put (b + k) w)
  | storeReserved {k : Nat} (w : Word) : k < L.reserved →
      Kept m (.storeReserved k w) (m.put k w)

/-- A heap `h` with its blocks becomes `h'` in a step: the collection that the step completes, if
    any, comes first, and then a block is handed out or a word is stored at most. -/
inductive Stepped (h : Heap L) (blocks : List Nat) (s : Step) (h' : Heap L) : Prop
  | granted {m : Heap L} {mid after : List Nat} {tag : Tag} {size : Nat} {g : Grant} :
      Settled h blocks (s.collected h) m mid → s.granted h = some g →
      Granted m mid tag size g h' after → Stepped h blocks s h'
  | kept {m : Heap L} {mid : List Nat} : Settled h blocks (s.collected h) m mid →
      s.granted h = none → Kept m s h' → Stepped h blocks s h'

variable {h h' m : Heap L} {blocks mid after : List Nat} {s : Step} {tag : Tag} {roots : Roots}

namespace Ordered

/-- A request that may not collect. -/
theorem stepped_tryAllocate (ho : h.Ordered blocks) (tag : Tag) (size : Nat) :
    Stepped h blocks (.tryAllocate tag size) ((Step.tryAllocate tag size).apply h) := by
  have hsettled : Settled h blocks ((Step.tryAllocate tag size).collected h) h blocks :=
    ⟨rfl, rfl⟩
  rcases ho.tryAllocate_cases tag size with ⟨hrun, _⟩ | ⟨g, h', after, hrun, hgranted⟩
  · have hnone : (Step.tryAllocate tag size).granted h = none := by
      rw [Step.granted, hrun]
    rw [Step.apply, hrun]
    exact .kept hsettled hnone (.same (by simp) rfl rfl)
  · have hsome : (Step.tryAllocate tag size).granted h = some g := by
      rw [Step.granted, hrun]
    rw [Step.apply, hrun]
    exact .granted hsettled hsome hgranted

/-- A request that may collect. -/
theorem stepped_allocate (ho : h.Ordered blocks) (hroots : roots.Regular L) (tag : Tag)
    (size : Nat) :
    Stepped h blocks (.allocate tag size roots) ((Step.allocate tag size roots).apply h) := by
  by_cases htag : tag = Tag.free
  · have hrun := h.allocate_of_reserved htag size roots
    have hsettled : Settled h blocks ((Step.allocate tag size roots).collected h) h blocks := by
      rw [Step.collected, hrun]
      exact ⟨rfl, rfl⟩
    have hnone : (Step.allocate tag size roots).granted h = none := by
      rw [Step.granted, hrun]
    rw [Step.apply, hrun]
    exact .kept hsettled hnone (.same (by simp) rfl rfl)
  rcases ho.allocate_cases hroots htag size with ⟨g, h', after, hrun, hgranted⟩ |
    ⟨traces, r, m, mid, _, hc, _, ⟨hrun, _⟩ | ⟨g, h', after, hrun, hgranted⟩⟩
  · -- Served at once.
    have hsettled : Settled h blocks ((Step.allocate tag size roots).collected h) h blocks := by
      rw [Step.collected, hrun]
      exact ⟨rfl, rfl⟩
    have hsome : (Step.allocate tag size roots).granted h = some g := by
      rw [Step.granted, hrun]
    rw [Step.apply, hrun]
    exact .granted hsettled hsome hgranted
  · -- Refused after the collection: counting the failure is all that is left.
    have hsettled : Settled h blocks ((Step.allocate tag size roots).collected h) m mid := by
      rw [Step.collected, hrun]
      exact hc
    have hnone : (Step.allocate tag size roots).granted h = none := by
      rw [Step.granted, hrun]
    rw [Step.apply, hrun]
    exact .kept hsettled hnone (.same (by simp) rfl rfl)
  · -- Served after the collection.
    have hsettled : Settled h blocks ((Step.allocate tag size roots).collected h) m mid := by
      rw [Step.collected, hrun]
      exact hc
    have hsome : (Step.allocate tag size roots).granted h = some g := by
      rw [Step.granted, hrun]
    rw [Step.apply, hrun]
    exact .granted hsettled hsome hgranted

theorem stepped_collect (ho : h.Ordered blocks) (hroots : roots.Regular L) :
    Stepped h blocks (.collect roots) ((Step.collect roots).apply h) := by
  obtain ⟨traces, r, m, mid, _, hrun, hc, _⟩ := ho.collect hroots
  have hsettled : Settled h blocks ((Step.collect roots).collected h) m mid := by
    rw [Step.collected, hrun]
    exact hc
  rw [Step.apply, hrun]
  exact .kept hsettled rfl (.same (by simp) rfl rfl)

theorem stepped_store (ho : h.Ordered blocks) {b : Nat} (hb : h.Allocated b) (k : Nat)
    (w : Word) : Stepped h blocks (.store b k w) ((Step.store b k w).apply h) := by
  refine .kept ⟨rfl, rfl⟩ rfl ?_
  rw [Step.apply, ho.store_apply hb]
  by_cases hk : k < h.sizeOf b
  · rw [if_pos hk]
    exact .store w hb hk
  · rw [if_neg hk]
    refine .same ?_ rfl rfl
    rintro c l v hstep
    cases hstep
    exact Nat.le_of_not_lt hk

theorem stepped_storeReserved (h : Heap L) (blocks : List Nat) (k : Nat) (w : Word) :
    Stepped h blocks (.storeReserved k w) ((Step.storeReserved k w).apply h) := by
  refine .kept ⟨rfl, rfl⟩ rfl ?_
  rw [Step.apply, HeapM.storeReserved_apply]
  by_cases hk : k < L.reserved
  · rw [if_pos hk]
    exact .storeReserved w hk
  · rw [if_neg hk]
    exact .same (by simp) rfl rfl

/-- **One step.** Every step of regular use is made like that. -/
theorem stepped (ho : h.Ordered blocks) (hs : s.Regular h) : Stepped h blocks s (s.apply h) := by
  cases s with
  | tryAllocate tag size => exact ho.stepped_tryAllocate tag size
  | allocate tag size roots => exact ho.stepped_allocate hs tag size
  | collect roots => exact ho.stepped_collect hs
  | store b k w => exact ho.stepped_store hs k w
  | storeReserved k w => exact stepped_storeReserved h blocks k w

end Ordered

/-! ### Order -/

theorem Settled.ordered {roots : Option Roots} (hm : Settled h blocks roots m mid)
    (ho : h.Ordered blocks) : m.Ordered mid := by
  cases roots with
  | none =>
    obtain ⟨rfl, rfl⟩ := hm
    exact ho
  | some roots => exact Reduced.ordered hm

/-- A step that hands out no block leaves the blocks as they are. -/
theorem Kept.ordered (hk : Kept m s h') (ho : m.Ordered mid) : h'.Ordered mid := by
  cases hk with
  | same _ hwords hheads => exact ho.of_words hwords hheads
  | store w hb hk => exact ho.put_payload hb hk w
  | storeReserved w hk => exact ho.put_reserved hk w

/-- **Order is kept by every step.** -/
theorem Ordered.step (ho : h.Ordered blocks) (hs : s.Regular h) :
    ∃ after, (s.apply h).Ordered after := by
  cases ho.stepped hs with
  | granted _ _ hgranted => exact ⟨_, hgranted.ordered⟩
  | kept hm _ hkept => exact ⟨_, hkept.ordered (hm.ordered ho)⟩

/-- A heap that an arena was turned into was just placed, with a layout that takes all words. -/
theorem place_of_intoHeap {a : Arena} {start : Pointer} (ha : a.intoHeap start = .ok ⟨L, h⟩) :
    ∃ hL : L.size = a.length, Layout.place a.length a.addressable start = .ok ⟨L, hL⟩ ∧
      h = fresh L ⟨a.words, a.size_words.trans hL.symm⟩ := by
  cases hplace : Layout.place a.length a.addressable start with
  | error e => cases ha.symm.trans (Arena.intoHeap_of_place_error hplace)
  | ok placed =>
    cases ha.symm.trans (Arena.intoHeap_of_place hplace)
    exact ⟨placed.property, rfl, rfl⟩

theorem eq_fresh_of_intoHeap {a : Arena} {start : Pointer}
    (ha : a.intoHeap start = .ok ⟨L, h⟩) : ∃ words, h = fresh L words := by
  obtain ⟨_, _, hfresh⟩ := place_of_intoHeap ha
  exact ⟨_, hfresh⟩

/-- **Regular use.** Every heap in regular use is in order. -/
theorem Reached.ordered (hr : h.Reached) : ∃ blocks, h.Ordered blocks := by
  induction hr with
  | placed ha =>
    obtain ⟨words, rfl⟩ := eq_fresh_of_intoHeap ha
    exact ⟨_, ordered_fresh L words⟩
  | step _ hs ih =>
    obtain ⟨blocks, ho⟩ := ih
    exact ho.step hs

end Heap

/-! ### A small heap -/

/-- One reserved word, one word of bits and fourteen words of heap. -/
def Layout.small : Layout where
  reserved := 1
  bitmap := 1
  heap := 14
  covered := by decide
  fits := by decide
  recordable := by decide
  addressable := by decide

/-- An arena of as many words, all zero. -/
def Arena.small : Arena := ⟨16, #[], by decide, by decide, by decide⟩

/-- A heap that was just placed behind the first word of the small arena. -/
def Heap.small : Heap Layout.small := .fresh Layout.small (Vector.replicate 16 0)

theorem Arena.intoHeap_small :
    Arena.small.intoHeap (.ofIndex 1) = .ok ⟨Layout.small, Heap.small⟩ := rfl

theorem Heap.reached_small : Heap.small.Reached := .placed Arena.intoHeap_small

end ArenaHeap
