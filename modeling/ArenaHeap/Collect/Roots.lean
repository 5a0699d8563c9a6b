import ArenaHeap.Word

namespace ArenaHeap

/-!
# Roots

Three pointers of the embedder anchor what is live: the bases of its local, input and output
frames. A root that equals the arena's base is unset and holds nothing. `Roots.mem_candidates` says
where a collection starts: at the roots that are set, slot by slot.
-/

/-- The three roots by name. -/
inductive RootSlot where
  | localBase
  | inputBase
  | outputBase
deriving DecidableEq, Repr

/-- The values of the three roots. -/
structure Roots where
  localBase : Pointer := .base
  inputBase : Pointer := .base
  outputBase : Pointer := .base
deriving DecidableEq, Repr, Inhabited

namespace Roots

/-- All roots unset. -/
def unset : Roots := {}

/-- Changes one root. -/
def set (r : Roots) (slot : RootSlot) (p : Pointer) : Roots :=
  match slot with
  | .localBase => { r with localBase := p }
  | .inputBase => { r with inputBase := p }
  | .outputBase => { r with outputBase := p }

/-- Unsets one root. -/
def clear (r : Roots) (slot : RootSlot) : Roots := r.set slot .base

/-- All three roots in the order in which collections read them. -/
def toList (r : Roots) : List Pointer := [r.localBase, r.inputBase, r.outputBase]

/-- The value of a root, if it is set. -/
def get? (r : Roots) (slot : RootSlot) : Option Pointer :=
  let p := match slot with
    | .localBase => r.localBase
    | .inputBase => r.inputBase
    | .outputBase => r.outputBase
  if p = .base then none else some p

/-- The virtual addresses that a collection starts from: those of the roots that are set. -/
def candidates (r : Roots) : List VAddr :=
  (r.toList.filter (· ≠ .base)).map (·.vaddr)

/-! ### Roots by slot -/

variable {r : Roots}

/-- The roots that are set are in slots. -/
theorem exists_get?_iff {p : Pointer} :
    (∃ slot, r.get? slot = some p) ↔ p ∈ r.toList ∧ p ≠ .base := by
  constructor
  · rintro ⟨slot, hslot⟩
    cases slot <;>
      · simp only [get?, Option.ite_none_left_eq_some, Option.some.injEq] at hslot
        obtain ⟨hne, rfl⟩ := hslot
        exact ⟨by simp [toList], hne⟩
  · rintro ⟨hmem, hne⟩
    simp only [toList, List.mem_cons, List.not_mem_nil, or_false] at hmem
    rcases hmem with rfl | rfl | rfl
    · exact ⟨.localBase, if_neg hne⟩
    · exact ⟨.inputBase, if_neg hne⟩
    · exact ⟨.outputBase, if_neg hne⟩

/-- A collection starts from the address of each slot that is set, and from no other. -/
theorem mem_candidates {v : VAddr} :
    v ∈ r.candidates ↔ ∃ slot p, r.get? slot = some p ∧ p.vaddr = v := by
  have hmem : v ∈ r.candidates ↔ ∃ p, (p ∈ r.toList ∧ p ≠ .base) ∧ p.vaddr = v := by
    simp [candidates]
  rw [hmem]
  constructor
  · rintro ⟨p, hp, hv⟩
    obtain ⟨slot, hslot⟩ := exists_get?_iff.2 hp
    exact ⟨slot, p, hslot, hv⟩
  · rintro ⟨slot, p, hslot, hv⟩
    exact ⟨p, exists_get?_iff.1 ⟨slot, hslot⟩, hv⟩

end Roots

end ArenaHeap
