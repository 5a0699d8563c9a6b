import ArenaHeap.Heap.Bitmap

namespace ArenaHeap

/-!
# What blocks hold

The checked reads of `Heap.Basic` can fail. The views here cannot, so they are what statements
about blocks are made of: `Heap.sizeOf`, `Heap.tagOf`, `Heap.linkOf` and `Heap.payloadOf`. For
each of them a lemma says that the checked read gives the same wherever its words lie in the
arena.
-/

variable {L : Layout}

namespace Heap

/-- The payload size in the header of a block. -/
def sizeOf (h : Heap L) (block : Nat) : Nat :=
  (Header.size (h.word (block - Header.words))).toNat

/-- The tag in the header of a block. -/
def tagOf (h : Heap L) (block : Nat) : Tag := Header.tag (h.word (block - Header.words))

/-- The address of the next free block after a free block. -/
def linkOf (h : Heap L) (block : Nat) : VAddr := h.word block

/-- The payload words of a block. -/
def payloadOf (h : Heap L) (block : Nat) : List Word :=
  (List.range (h.sizeOf block)).map fun k => h.word (block + k)

/-- A heap word whose bit is set. -/
def Allocated (h : Heap L) (block : Nat) : Prop := L.InHeap block ∧ h.bit block = true

instance (h : Heap L) (block : Nat) : Decidable (h.Allocated block) :=
  inferInstanceAs (Decidable (_ ∧ _))

theorem length_payloadOf (h : Heap L) (block : Nat) :
    (h.payloadOf block).length = h.sizeOf block := by
  simp [payloadOf]

/-- No header records a size over the limit. -/
theorem sizeOf_le (h : Heap L) (block : Nat) : h.sizeOf block ≤ Header.maxSize :=
  Header.toNat_size_le _

theorem header_eq_ok (h : Heap L) {block : Nat} (h₀ : 0 < block) (h₁ : block ≤ L.size) :
    h.header block = .ok (h.word (block - Header.words)) := by
  have hw : Header.words ≤ block := h₀
  simp only [header, headerIndex, hw, if_true]
  exact h.read_eq_ok (by simp only [Header.words]; omega)

theorem sizeAt_eq_ok (h : Heap L) {block : Nat} (h₀ : 0 < block) (h₁ : block ≤ L.size) :
    h.sizeAt block = .ok (h.sizeOf block) := by
  rw [sizeAt, h.header_eq_ok h₀ h₁]
  rfl

/-- No size read from a header is over the limit. -/
theorem le_of_sizeAt {h : Heap L} {block n : Nat} (hn : h.sizeAt block = .ok n) :
    n ≤ Header.maxSize := by
  rw [sizeAt] at hn
  cases hheader : h.header block with
  | error fault =>
    rw [hheader] at hn
    cases hn
  | ok w =>
    rw [hheader] at hn
    cases hn
    exact Header.toNat_size_le w

theorem tagAt_eq_ok (h : Heap L) {block : Nat} (h₀ : 0 < block) (h₁ : block ≤ L.size) :
    h.tagAt block = .ok (h.tagOf block) := by
  rw [tagAt, h.header_eq_ok h₀ h₁]
  rfl

theorem link_eq_ok (h : Heap L) {block : Nat} (hb : block < L.size) :
    h.link block = .ok (h.linkOf block) :=
  h.read_eq_ok hb

theorem bitAt_eq_ok (h : Heap L) {i : Nat} (hi : L.InHeap i) : h.bitAt i = .ok (h.bit i) := by
  simp [bitAt, hi]

theorem slice_eq_ok (h : Heap L) {i n : Nat} (hn : i + n ≤ L.size) :
    h.slice i n = .ok ((List.range n).map fun k => h.word (i + k)).toArray := by
  simp only [slice, hn, if_true, Except.ok.injEq]
  apply Array.ext
  · simp
    omega
  · intro k hk _
    have hk' : i + k < L.size := by
      simp only [Array.size_extract] at hk
      omega
    simp [word, hk']

theorem payloadAt_eq_ok (h : Heap L) {block : Nat} (h₀ : 0 < block)
    (h₁ : block + h.sizeOf block ≤ L.size) :
    h.payloadAt block = .ok (h.payloadOf block).toArray := by
  rw [payloadAt, h.sizeAt_eq_ok h₀ (by omega)]
  exact h.slice_eq_ok h₁

end Heap

end ArenaHeap
