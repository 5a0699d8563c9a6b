import ArenaHeap.Proofs.RegularUse

namespace ArenaHeap

/-!
# When a collection is interrupted

Roots come from the embedder and are marked from as they are; payload words are followed only if
they are addresses in the heap. So in regular use it is the roots alone that can interrupt a
collection, and the first one that does so leaves nothing behind but the bits that were cleared for
the roots in front of it.

* `Pointer.Strays` — a root that interrupts.
* `Heap.Interrupted` — what a collection leaves when it meets one.
* `Heap.Reached.collect_interrupted` — when that happens.
-/

variable {L : Layout}

/-- A root that is set, and whose address is that of a whole word outside the heap. The address is
    the distance from the arena's base cut to a word. -/
def Pointer.Strays (p : Pointer) (L : Layout) : Prop :=
  p ≠ .base ∧ p.vaddr.Aligned ∧ ¬ L.Spans p.vaddr

instance (p : Pointer) (L : Layout) : Decidable (p.Strays L) :=
  inferInstanceAs (Decidable (_ ∧ _ ∧ _))

namespace Roots

/-- The virtual addresses of those of some roots that are set. -/
def addresses (roots : List Pointer) : List VAddr := (roots.filter (· ≠ .base)).map (·.vaddr)

theorem mem_addresses {roots : List Pointer} {v : VAddr} :
    v ∈ addresses roots ↔ ∃ p ∈ roots, p ≠ .base ∧ p.vaddr = v := by
  simp [addresses, and_assoc]

theorem addresses_split {front back : List Pointer} {p : Pointer} (hp : p ≠ .base) :
    addresses (front ++ p :: back) = addresses front ++ p.vaddr :: addresses back := by
  simp [addresses, hp]

/-- The addresses of roots none of which strays can be read. -/
theorem regular_of_not_strays {roots : List Pointer} (hroots : ∀ p ∈ roots, ¬ p.Strays L) :
    ∀ v ∈ addresses roots, L.Spans v ∨ ¬ v.Aligned := by
  intro v hv
  obtain ⟨p, hp, hset, rfl⟩ := mem_addresses.1 hv
  by_contra hbad
  rw [not_or, not_not] at hbad
  exact hroots p hp ⟨hset, hbad.2, hbad.1⟩

end Roots

namespace Heap

/-- A collection was interrupted at a root `p` in front of which there are others: of the heap
    nothing has changed but the bits of what those reach. -/
structure Interrupted (h : Heap L) (roots : Roots) (front : List Pointer) (p : Pointer) :
    Prop where
  outcome_eq : (h.collect roots).1.outcome =
    .error (.bitOutside p.vaddr.index L.heapStart L.heapEnd)
  word_eq : ∀ j, j < L.reserved ∨ L.heapStart ≤ j → (h.collect roots).2.word j = h.word j
  bit_iff : ∀ i, L.HasBit i → ((h.collect roots).2.bit i = true ↔
    h.bit i = true ∧ ¬ h.Reachable (Roots.addresses front) i)
  heads_eq : (h.collect roots).2.heads = h.heads
  counters_eq : (h.collect roots).2.counters = h.counters

variable {h : Heap L} {blocks : List Nat} {roots : Roots}

/-- The first root that strays interrupts a collection. -/
theorem Ordered.interrupted (ho : h.Ordered blocks) {front back : List Pointer} {p : Pointer}
    (hsplit : roots.toList = front ++ p :: back) (hp : p.Strays L)
    (hfront : ∀ q ∈ front, ¬ q.Strays L) : h.Interrupted roots front p := by
  obtain ⟨hset, hal, hout⟩ := hp
  have hcandidates : roots.candidates =
      Roots.addresses front ++ p.vaddr :: Roots.addresses back := by
    rw [← Roots.addresses_split hset, ← hsplit]
    rfl
  obtain ⟨visited, traces, hm, hmark⟩ := markAll_outside ho.contained
    (Roots.regular_of_not_strays hfront) hal hout (Roots.addresses back) List.nodup_nil
    fun b hb => absurd hb List.not_mem_nil
  have hvis : ∀ b, b ∈ visited ↔ h.Reachable (Roots.addresses front) b :=
    fun b => hm.mem_iff_reachable
  have hin : ∀ b ∈ visited, L.InHeap b := fun b hb => (hm.reachable b hb).allocated.1
  have hrun : h.collect roots = (⟨traces, .error (.bitOutside p.vaddr.index L.heapStart L.heapEnd)⟩,
      h.clearBits visited) := by
    rw [List.append_nil, ← hcandidates] at hmark
    rw [Heap.collect, show h.markAll roots.candidates = _ from hmark]
  refine ⟨by rw [hrun], fun j hj => ?_, fun i hi => ?_, ?_, ?_⟩
  · rw [hrun, word_clearBits hin hj]
  · rw [hrun, bit_clearBits hin hi.1, ← hvis]
    simp
  · rw [hrun, heads_clearBits]
  · rw [hrun, counters_clearBits]

/-- A collection is interrupted if one of its roots strays, and not otherwise. -/
theorem Ordered.fault_iff (ho : h.Ordered blocks) (roots : Roots) :
    (∃ fault, (h.collect roots).1.outcome = .error fault) ↔ ∃ p ∈ roots.toList, p.Strays L := by
  constructor
  · rintro ⟨fault, hfault⟩
    by_contra hnone
    have hroots : roots.Regular L :=
      Roots.regular_of_not_strays fun p hp hs => hnone ⟨p, hp, hs⟩
    obtain ⟨traces, r, g, after, visited, hrun, -⟩ := ho.collect_rebuilt hroots
    rw [hrun] at hfault
    cases hfault
  · intro hstray
    have hfind : (roots.toList.find? (·.Strays L)).isSome := by
      simpa using hstray
    obtain ⟨p, hfirst⟩ := Option.isSome_iff_exists.1 hfind
    obtain ⟨hp, front, back, hsplit, hfront⟩ := List.find?_eq_some_iff_append.1 hfirst
    have hinterrupted := ho.interrupted hsplit (by simpa using hp) fun q hq => by
      simpa using hfront q hq
    exact ⟨_, hinterrupted.outcome_eq⟩

/-- **Interruption.** In regular use a collection is interrupted just when a root strays, whatever
    payload words hold, and then nothing has changed but the bits of the blocks that the roots in
    front of the first such root reach. -/
theorem Reached.collect_interrupted (hreach : h.Reached) (roots : Roots) :
    ((∃ fault, (h.collect roots).1.outcome = .error fault) ↔ ∃ p ∈ roots.toList, p.Strays L) ∧
    (∀ front p back, roots.toList = front ++ p :: back → p.Strays L →
      (∀ q ∈ front, ¬ q.Strays L) → h.Interrupted roots front p) ∧
    ∀ b k w, h.Allocated b →
      ((∃ fault, (((Step.store b k w).apply h).collect roots).1.outcome = .error fault) ↔
        ∃ fault, (h.collect roots).1.outcome = .error fault) := by
  obtain ⟨blocks, ho⟩ := hreach.ordered
  refine ⟨ho.fault_iff roots, fun front p back => ho.interrupted, fun b k w hb => ?_⟩
  -- A store in a block in use is a step of regular use.
  obtain ⟨blocks', ho'⟩ := (hreach.step (s := .store b k w) hb).ordered
  rw [ho'.fault_iff roots, ho.fault_iff roots]

/-- The block that the first root refers to is visited before the second root, which refers to the
    bitmap, interrupts the collection. -/
theorem collect_interrupted_small :
    let h := (Step.tryAllocate 7 2).apply small
    let roots : Roots := ⟨.ofIndex 3, .ofIndex 1, .base⟩
    h.Reached ∧ h.Allocated 3 ∧ h.Interrupted roots [.ofIndex 3] (.ofIndex 1) ∧
      (h.collect roots).2.bit 3 = false := by
  intro h roots
  have hreach : h.Reached := reached_small.step trivial
  have hblock : h.Allocated 3 := by decide +kernel
  have hinterrupted : h.Interrupted roots [.ofIndex 3] (.ofIndex 1) :=
    (hreach.collect_interrupted roots).2.1 [.ofIndex 3] (.ofIndex 1) [.base] rfl (by decide)
      (by decide)
  refine ⟨hreach, hblock, hinterrupted, ?_⟩
  have hreachable : h.Reachable (Roots.addresses [.ofIndex 3]) 3 :=
    .candidate hblock (by decide)
  have hbit := (hinterrupted.bit_iff 3 hblock.1.hasBit).not.2 fun hb => hb.2 hreachable
  simpa using hbit

end Heap

end ArenaHeap
