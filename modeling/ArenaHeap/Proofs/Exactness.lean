import ArenaHeap.Proofs.RegularUse

namespace ArenaHeap

/-!
# Collections are exact

A collector that takes every payload word for an address could keep too much: a word may name the
middle of a block, a block that is long gone, or free space. In regular use it does not, since
bits are set at allocated blocks only. So a collection keeps just the blocks that are reachable in
the sense of `Heap.Reachable`, and all that they hold.
-/

variable {L : Layout}

namespace Heap

/-- The block walk meets each allocated block before a collection and each survivor after it. What
    else it meets afterwards is free space, in which every block lies that did not survive. -/
def FreesTheRest (h : Heap L) (roots : Roots) (h' : Heap L) : Prop :=
  ∃ before after, h.blocks = .ok before ∧ h'.blocks = .ok after ∧
    (∀ b, h.Allocated b → h.info b ∈ before) ∧
    (∀ b, h.Survives roots b → h'.info b ∈ after) ∧
    (∀ y ∈ after, h.Survives roots y.index ∨ y.isFree = true ∧ y.bit = false) ∧
    ∀ x ∈ before, ¬ h.Survives roots x.index → ∃ y ∈ after, y.isFree = true ∧ y.bit = false ∧
      y.index ≤ x.index ∧ x.next ≤ y.next

/-- A collection of `h` from some roots, with account `c` and result `h'`, keeps what is reachable
    and nothing else. -/
structure KeepsExactly (h : Heap L) (roots : Roots) (c : Collection) (h' : Heap L) : Prop where
  completed : ∃ report, c.outcome = .ok report
  /-- Afterwards just the survivors have their bit set. -/
  allocated_iff : ∀ b, h'.Allocated b ↔ h.Survives roots b
  kept : ∀ b, h.Survives roots b →
    h'.tagOf b = h.tagOf b ∧ h'.sizeOf b = h.sizeOf b ∧ h'.payloadOf b = h.payloadOf b
  freed : FreesTheRest h roots h'
  reserved : ∀ j, j < L.reserved → h'.word j = h.word j
  /-- Each reachable block is counted once. -/
  marked : ∃ visited : List Nat, visited.Nodup ∧
    (∀ b, b ∈ visited ↔ h.Reachable roots.candidates b) ∧ c.marked = visited.length

variable {h h' : Heap L} {roots : Roots} {blocks after : List Nat}

theorem Ordered.isFree_info (ho : h.Ordered blocks) {b : Nat} (hb : b ∈ blocks)
    (hclear : h.bit b = false) : (h.info b).isFree = true := by
  show (h.tagOf b == Tag.free) = true
  rw [ho.tagOf_free b hb hclear]
  rfl

/-- The block walk after a collection, compared with the one before. -/
theorem Collected.freed (hc : Collected h roots blocks h' after) (ho : h.Ordered blocks) :
    FreesTheRest h roots h' := by
  refine ⟨_, _, h.blocks_eq_ok (tiles_iff.2 ho.tiles),
    h'.blocks_eq_ok (tiles_iff.2 hc.ordered.tiles), ?_, ?_, ?_, ?_⟩
  · intro b hb
    have hmem := (ho.allocated_iff.1 hb).1
    simpa using ⟨b, hmem, rfl⟩
  · intro b hs
    have hmem := (hc.ordered.allocated_iff.1 (hc.allocated_iff.2 hs)).1
    simpa using ⟨b, hmem, rfl⟩
  · intro y hy
    obtain ⟨f, hf, rfl⟩ : ∃ f ∈ after, h'.info f = y := by simpa using hy
    -- After a collection a set bit means a survivor and a clear one free space.
    cases hbit : h'.bit f with
    | true => exact .inl ((hc.bit_iff f (hc.ordered.inHeap hf).hasBit).1 hbit)
    | false => exact .inr ⟨hc.ordered.isFree_info hf hbit, hbit⟩
  · intro x hx hs
    obtain ⟨b, hb, rfl⟩ : ∃ b ∈ blocks, h.info b = x := by simpa using hx
    obtain ⟨f, hf, hclear, hle, hend⟩ := hc.inside b hb hs
    refine ⟨h'.info f, by simpa using ⟨f, hf, rfl⟩, hc.ordered.isFree_info hf hclear, hclear, hle,
      ?_⟩
    show b + h.sizeOf b + Header.words ≤ f + h'.sizeOf f + Header.words
    omega

/-- **Collections are exact.** A collection of a heap in regular use, from any roots it can read,
    completes and keeps the reachable blocks that are not tagged as free, and nothing else. -/
theorem Reached.collect_exact (hr : h.Reached) (hroots : roots.Regular L) :
    KeepsExactly h roots (h.collect roots).1 (h.collect roots).2 := by
  obtain ⟨blocks, ho⟩ := hr.ordered
  obtain ⟨traces, r, h', after, visited, hrun, hc, hsum, hnodup, hvis⟩ := ho.collect hroots
  rw [hrun]
  refine ⟨⟨r, rfl⟩, fun b => hc.allocated_iff, fun b hs => ?_, hc.freed ho, hc.reserved,
    ⟨visited, hnodup, hvis, hsum⟩⟩
  obtain ⟨hsize, htag, hpayload⟩ := hc.views_eq hs
  exact ⟨htag, hsize, hpayload⟩

/-- A block that a root names and that refers to itself survives the collection. -/
theorem collect_exact_small :
    let h := (Step.store 3 0 (VAddr.ofIndex 3)).apply ((Step.tryAllocate 7 2).apply Heap.small)
    let roots : Roots := ⟨.ofIndex 3, .base, .base⟩
    h.Reached ∧ roots.Regular Layout.small ∧ h.Survives roots 3 ∧
      KeepsExactly h roots (h.collect roots).1 (h.collect roots).2 := by
  intro h roots
  have hplaced : ((Step.tryAllocate 7 2).apply Heap.small).Reached := reached_small.step trivial
  have hr : h.Reached := by
    apply hplaced.step
    show Heap.Allocated _ 3
    decide +kernel
  have hroots : roots.Regular Layout.small := by decide +kernel
  have hs : h.Survives roots 3 :=
    ⟨.candidate (by decide +kernel) (by decide +kernel), by decide +kernel⟩
  exact ⟨hr, hroots, hs, hr.collect_exact hroots⟩

end Heap

end ArenaHeap
