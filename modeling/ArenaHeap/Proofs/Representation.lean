import ArenaHeap.Proofs.RegularUse

namespace ArenaHeap

/-!
# What the words of a heap represent

Whether a block is in use is a matter of history: it was handed out, and each collection since
then kept it. The heap has no record of this but its headers, links and bits. `Heap.Holds` follows
the history beside the heap, and `Heap.Reached.representation` says that the words agree with it.
-/

variable {L : Layout}

/-! ### Blocks in use -/

/-- The blocks in use after a step, if some were in use before. -/
def Step.inUse (h : Heap L) (s : Step) (owned : Nat → Prop) (b : Nat) : Prop :=
  (∃ g ∈ s.granted h, g.block = b) ∨ (owned b ∧ ∀ roots ∈ s.collected h, h.Survives roots b)

/-- A heap in regular use, with the blocks that were handed out and not taken back since. -/
inductive Heap.Holds : (h : Heap L) → (owned : Nat → Prop) → Prop
  | placed {a : Arena} {start : Pointer} {h : Heap L} :
      a.intoHeap start = .ok ⟨L, h⟩ → Heap.Holds h fun _ => False
  | step {h : Heap L} {owned : Nat → Prop} {s : Step} : Heap.Holds h owned → s.Regular h →
      Heap.Holds (s.apply h) (s.inUse h owned)

namespace Heap

variable {h h' m : Heap L} {blocks mid : List Nat} {s : Step} {owned : Nat → Prop}

theorem Holds.reached (hh : h.Holds owned) : h.Reached := by
  induction hh with
  | placed ha => exact .placed ha
  | step _ hs ih => exact .step ih hs

theorem Reached.exists_holds (hr : h.Reached) : ∃ owned, h.Holds owned := by
  induction hr with
  | placed ha => exact ⟨_, .placed ha⟩
  | step _ hs ih =>
    obtain ⟨owned, hh⟩ := ih
    exact ⟨_, .step hh hs⟩

/-- A collection clears the bits of the blocks that do not survive it, and sets none. -/
theorem Settled.bit_iff {roots : Option Roots} (hm : Settled h blocks roots m mid) {i : Nat}
    (hi : L.HasBit i) :
    m.bit i = true ↔ h.bit i = true ∧ ∀ r ∈ roots, h.Survives r i := by
  cases roots with
  | none =>
    obtain ⟨rfl, rfl⟩ := hm
    simp
  | some r =>
    have hc : Collected h r blocks m mid := hm
    rw [hc.bit_iff i hi]
    constructor
    · intro hs
      refine ⟨hs.1.allocated.2, fun r' hr' => ?_⟩
      cases hr'
      exact hs
    · exact fun ⟨_, hs⟩ => hs r rfl

/-- A store hits no bit. -/
theorem Kept.bit_eq (hk : Kept m s h') {i : Nat} (hi : L.HasBit i) : h'.bit i = m.bit i := by
  cases hk with
  | same _ hwords _ => exact bit_congr (word_of_words hwords _)
  | store w hb _ =>
    refine bit_put_of_le m hi ?_ w
    have := hb.1.1
    omega
  | storeReserved w hk => exact bit_put_of_lt m i hk w

/-- **Bits follow history.** The bits that are set are those of the blocks in use. -/
theorem Holds.bit_iff (hh : h.Holds owned) {i : Nat} (hi : L.HasBit i) :
    h.bit i = true ↔ owned i := by
  -- By induction on the history; each step sets and clears bits as the ledger does.
  induction hh with
  | placed ha =>
    obtain ⟨words, rfl⟩ := eq_fresh_of_intoHeap ha
    simp [bit_fresh L words hi]
  | @step h owned s hh hs ih =>
    obtain ⟨blocks, ho⟩ := hh.reached.ordered
    cases ho.stepped hs with
    | granted hm hg hgranted =>
      rw [hgranted.bit_eq i hi, Bool.or_eq_true, hm.bit_iff hi, ih, Step.inUse, hg]
      simp
    | kept hm hg hkept =>
      rw [hkept.bit_eq hi, hm.bit_iff hi, ih, Step.inUse, hg]
      simp

theorem Holds.inHeap (hh : h.Holds owned) {i : Nat} (hi : owned i) : L.InHeap i := by
  induction hh with
  | placed _ => exact absurd hi not_false
  | @step h owned s hh hs ih =>
    obtain ⟨blocks, ho⟩ := hh.reached.ordered
    rcases hi with ⟨g, hg, rfl⟩ | ⟨hi, _⟩
    · cases ho.stepped hs with
      | granted hm hg' hgranted =>
        rw [hg'] at hg
        cases hg
        exact (hm.ordered ho).inHeap hgranted.mem_before
      | kept _ hg' _ =>
        rw [hg'] at hg
        cases hg
    · exact ih hi

/-! ### The five parts -/

/-- The words of a heap represent some blocks, of which those in `owned` are in use. -/
structure Represents (h : Heap L) (owned : Nat → Prop) (blocks : List Nat) : Prop where
  /-- The block walk meets just these blocks. -/
  walk : h.blocks = .ok (blocks.map h.info).toArray
  /-- They lie edge to edge, have room for a link, and the last one ends with the heap. -/
  tiles : h.Tiles L.heapStart blocks
  mem_of_owned : ∀ b, owned b → b ∈ blocks
  /-- In the whole bitmap no bit is set but those of the blocks in use. -/
  bit_iff : ∀ i, L.HasBit i → (h.bit i = true ↔ owned i)
  /-- The list of free blocks leads through all others and then ends. -/
  links : h.Links (h.heads.get commonList) (h.freeOf blocks) VAddr.null
  freeList : h.freeList commonList = .ok ((h.freeOf blocks).map VAddr.ofIndex).toArray
  sorted : (h.freeOf blocks).Pairwise (· < ·)
  tagOf_free : ∀ b ∈ h.freeOf blocks, h.tagOf b = Tag.free
  /-- No two of them are neighbours. -/
  apart : ∀ b ∈ h.freeOf blocks, ∀ c ∈ h.freeOf blocks, c ≠ b + h.sizeOf b + Header.words
  /-- All other lists are empty. -/
  heads_null : ∀ n : Fin listCount, n ≠ commonList → h.heads.get n = VAddr.null

/-- Following the list of free blocks finds just those. -/
theorem Ordered.freeList (ho : h.Ordered blocks) :
    h.freeList commonList = .ok ((h.freeOf blocks).map VAddr.ofIndex).toArray :=
  ho.links.freeList_eq_ok ho.nodup_freeOf ho.inHeap_of_mem_freeOf

/-- All other lists have no entries. -/
theorem Ordered.freeList_of_ne (ho : h.Ordered blocks) {n : Fin listCount} (hn : n ≠ commonList) :
    h.freeList n = .ok #[] := by
  have hnull : h.heads[n.val] = VAddr.null := ho.heads_null n hn
  rw [Heap.freeList, dif_pos n.isLt, hnull, linksFrom.eq_def, if_pos rfl]

/-- A walk over the blocks tells which they are. -/
theorem Ordered.eq_of_blocks (ho : h.Ordered blocks) {others : List Nat}
    (hwalk : h.blocks = .ok (others.map h.info).toArray) : others = blocks := by
  have hinj : Function.Injective h.info := fun b c hbc => congrArg BlockInfo.index hbc
  have heq := hwalk.symm.trans (h.blocks_eq_ok (tiles_iff.2 ho.tiles))
  exact hinj.list_map (List.toArray_inj (Except.ok.inj heq))

/-- **Representation.** In regular use headers, links and bits agree with each other and with the
    history of the heap. -/
theorem Reached.representation (hr : h.Reached) :
    (∃ owned, h.Holds owned) ∧
      ∀ owned, h.Holds owned → ∃ blocks, h.Represents owned blocks := by
  refine ⟨hr.exists_holds, fun owned hh => ?_⟩
  obtain ⟨blocks, ho⟩ := hr.ordered
  have htiles : h.Tiles L.heapStart blocks := tiles_iff.2 ho.tiles
  have hmem : ∀ b, owned b → b ∈ blocks := by
    intro b hb
    have hin := hh.inHeap hb
    exact (ho.allocated_iff.1 ⟨hin, (hh.bit_iff hin.hasBit).2 hb⟩).1
  have htag : ∀ b ∈ h.freeOf blocks, h.tagOf b = Tag.free := by
    intro b hb
    obtain ⟨hmem, hclear⟩ := mem_freeOf.1 hb
    exact ho.tagOf_free b hmem hclear
  exact ⟨blocks, h.blocks_eq_ok htiles, htiles, hmem, fun i hi => hh.bit_iff hi, ho.links,
    ho.freeList, ho.tiles.sorted.filter _, htag, fun b hb c hc => ho.not_touching hb hc,
    ho.heads_null⟩

/-- After one request the block handed out is in use, and the rest of the heap is free. -/
theorem representation_small :
    let h := (Step.tryAllocate 7 2).apply Heap.small
    h.Reached ∧ (Step.tryAllocate 7 2).granted Heap.small = some ⟨7, 3, 2⟩ ∧
      (∃ owned, h.Holds owned) ∧
      ∀ owned, h.Holds owned → ∃ blocks, h.Represents owned blocks := by
  intro h
  have hr : h.Reached := reached_small.step trivial
  exact ⟨hr, by decide +kernel, hr.representation⟩

end Heap

end ArenaHeap
