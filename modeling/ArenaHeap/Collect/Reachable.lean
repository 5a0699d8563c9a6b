import ArenaHeap.Collect.Roots
import ArenaHeap.Heap.View

namespace ArenaHeap

/-!
# Reachable blocks

Which blocks a collection has to keep, said without marking: a block is reachable if a candidate
or a payload word of a reachable block is its address. Reachability depends on the candidates as
a set only, as `Heap.Reachable.mono` says. `Heap.reachable_iff_slot` has the roots slot by slot.
-/

variable {L : Layout}

namespace Heap

/-- The allocated blocks that can be reached from some candidates through payload words. -/
inductive Reachable (h : Heap L) (candidates : List VAddr) : (block : Nat) → Prop
  | candidate {block : Nat} : h.Allocated block → VAddr.ofIndex block ∈ candidates →
      Reachable h candidates block
  | word {holder block : Nat} : Reachable h candidates holder → h.Allocated block →
      VAddr.ofIndex block ∈ h.payloadOf holder → Reachable h candidates block

namespace Reachable

variable {h : Heap L} {candidates : List VAddr}

/-- Only allocated blocks are reachable. -/
theorem allocated {block : Nat} (hr : h.Reachable candidates block) : h.Allocated block := by
  cases hr <;> assumption

/-- More candidates reach no less. -/
theorem mono {others : List VAddr} (hsub : ∀ v ∈ candidates, v ∈ others) {block : Nat}
    (hr : h.Reachable candidates block) : h.Reachable others block := by
  induction hr with
  | candidate ha hv => exact .candidate ha (hsub _ hv)
  | word _ ha hv ih => exact .word ih ha hv

end Reachable

/-- What is reachable from roots: the allocated blocks that are named by a slot that is set, or by a
    payload word of a reachable block. -/
theorem reachable_iff_slot {h : Heap L} {roots : Roots} {block : Nat} :
    h.Reachable roots.candidates block ↔ h.Allocated block ∧
      ((∃ slot p, roots.get? slot = some p ∧ p.vaddr = VAddr.ofIndex block) ∨
        ∃ holder, h.Reachable roots.candidates holder ∧
          VAddr.ofIndex block ∈ h.payloadOf holder) := by
  rw [← Roots.mem_candidates]
  constructor
  · intro hr
    cases hr with
    | candidate ha hv => exact ⟨ha, .inl hv⟩
    | word hholder ha hv => exact ⟨ha, .inr ⟨_, hholder, hv⟩⟩
  · rintro ⟨ha, hv | ⟨holder, hholder, hv⟩⟩
    · exact .candidate ha hv
    · exact .word hholder ha hv

end Heap

end ArenaHeap
