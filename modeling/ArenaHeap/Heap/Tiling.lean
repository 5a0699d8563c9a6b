import ArenaHeap.Heap.View
import ArenaHeap.Heap.Walk

namespace ArenaHeap

/-!
# Tilings

In a heap that was not overwritten by mistake the blocks lie edge to edge and the last one ends
where the heap does. `Heap.Tiles` says so of a list of blocks, without walking;
`Heap.blocks_eq_ok` is that the walk then meets just these blocks.
-/

variable {L : Layout}

namespace Heap

/-- The blocks fill the heap from a word on: each has its header where the one before it ends and
    room for a link, and the last one ends with the heap. -/
def Tiles (h : Heap L) : (start : Nat) → (blocks : List Nat) → Prop
  | start, [] => start = L.heapEnd
  | start, b :: bs => b = start + Header.words ∧ Header.minSize ≤ h.sizeOf b ∧
      h.Tiles (b + h.sizeOf b) bs

/-- A block as its header and its bit describe it. -/
def info (h : Heap L) (block : Nat) : BlockInfo where
  index := block
  tag := h.tagOf block
  size := h.sizeOf block
  bit := h.bit block

theorem describe_eq_ok (h : Heap L) {block : Nat} (hb : L.InHeap block) (h₀ : 0 < block) :
    h.describe block = .ok (h.info block) := by
  have hs : block ≤ L.size := Nat.le_of_lt hb.2
  rw [describe, h.sizeAt_eq_ok h₀ hs, h.tagAt_eq_ok h₀ hs, h.bitAt_eq_ok hb]
  rfl

/-- A tiling ends with the heap. -/
theorem Tiles.le_heapEnd {h : Heap L} {start : Nat} {blocks : List Nat}
    (ht : h.Tiles start blocks) : start ≤ L.heapEnd := by
  induction blocks generalizing start with
  | nil => exact Nat.le_of_eq ht
  | cons b bs ih =>
    obtain ⟨hb, _, hrest⟩ := ht
    have := ih hrest
    omega

/-- All of a block of a tiling lies in the heap. -/
theorem Tiles.bounds {h : Heap L} {start : Nat} {blocks : List Nat} (ht : h.Tiles start blocks)
    {b : Nat} (hb : b ∈ blocks) : start < b ∧ b + h.sizeOf b ≤ L.heapEnd := by
  induction blocks generalizing start with
  | nil => simp at hb
  | cons c bs ih =>
    obtain ⟨hc, _, hrest⟩ := ht
    have hle := hrest.le_heapEnd
    rw [Header.words] at hc
    rcases List.mem_cons.1 hb with rfl | hb
    · omega
    · have := ih hrest hb
      omega

/-- Every block of a tiling has room for a link. -/
theorem Tiles.minSize_le {h : Heap L} {start : Nat} {blocks : List Nat}
    (ht : h.Tiles start blocks) {b : Nat} (hb : b ∈ blocks) : Header.minSize ≤ h.sizeOf b := by
  induction blocks generalizing start with
  | nil => simp at hb
  | cons c bs ih =>
    obtain ⟨_, hc, hrest⟩ := ht
    rcases List.mem_cons.1 hb with rfl | hb
    · exact hc
    · exact ih hrest hb

theorem walkFrom_eq_ok (h : Heap L) {start : Nat} {blocks : List Nat}
    (ht : h.Tiles start blocks) (hs : L.heapStart ≤ start) (found : Array BlockInfo) :
    h.walkFrom (start + Header.words) found = .ok (found ++ (blocks.map h.info).toArray) := by
  induction blocks generalizing start found with
  | nil =>
    have hend : ¬ start + Header.words < L.heapEnd := by
      rw [show start = L.heapEnd from ht]
      omega
    rw [walkFrom, if_neg hend]
    simp
  | cons b bs ih =>
    have hbound := ht.bounds (List.mem_cons_self ..)
    obtain ⟨hb, hmin, hrest⟩ := ht
    rw [Header.minSize] at hmin
    have hin : L.InHeap b := ⟨by omega, by omega⟩
    rw [← hb, walkFrom, if_pos hin.2, h.describe_eq_ok hin (by omega)]
    have := ih hrest (by omega) (found.push (h.info b))
    simpa [info] using this

/-- A walk over a heap with a tiling meets the blocks of the tiling in their order. -/
theorem blocks_eq_ok (h : Heap L) {blocks : List Nat} (ht : h.Tiles L.heapStart blocks) :
    h.blocks = .ok (blocks.map h.info).toArray := by
  have := h.walkFrom_eq_ok ht (Nat.le_refl _) #[]
  simpa [Heap.blocks, Layout.firstBlock] using this

end Heap

end ArenaHeap
