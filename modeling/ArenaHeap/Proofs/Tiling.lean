import ArenaHeap.Heap.Tiling
import ArenaHeap.Proofs.Frame

namespace ArenaHeap

/-!
# Parts of a tiling

A sweep knows the blocks behind it and those ahead of it, so tilings are cut and joined here.
`Heap.TilesTo` is `Heap.Tiles` with an end of its own.

* `Heap.tiles_iff` — a tiling of the heap is one that ends with the heap.
* `Heap.tilesTo_append_iff` — a tiling is cut where a block ends.
* `Heap.TilesTo.exists_covers`, `Heap.TilesTo.eq_of_covers` — every word belongs to one block.
* `Heap.TilesTo.unique` — the sizes decide what the blocks are.
-/

variable {L : Layout}

namespace Heap

/-- The blocks fill the words from `start` to `stop`, edge to edge. -/
def TilesTo (h : Heap L) : (start : Nat) → (blocks : List Nat) → (stop : Nat) → Prop
  | start, [], stop => start = stop
  | start, b :: bs, stop => b = start + Header.words ∧ Header.minSize ≤ h.sizeOf b ∧
      h.TilesTo (b + h.sizeOf b) bs stop

/-- A word that is the header or a payload word of a block. -/
def Covers (h : Heap L) (block i : Nat) : Prop := block ≤ i + 1 ∧ i < block + h.sizeOf block

instance (h : Heap L) (block i : Nat) : Decidable (h.Covers block i) :=
  inferInstanceAs (Decidable (_ ∧ _))

variable {h h' : Heap L} {start stop : Nat} {blocks : List Nat}

theorem tiles_iff : h.Tiles start blocks ↔ h.TilesTo start blocks L.heapEnd := by
  induction blocks generalizing start with
  | nil => exact Iff.rfl
  | cons b bs ih => simp only [Tiles, TilesTo, ih]

/-- A tiling is cut where a block of it ends. -/
theorem tilesTo_append_iff {xs ys : List Nat} :
    h.TilesTo start (xs ++ ys) stop ↔
      ∃ middle, h.TilesTo start xs middle ∧ h.TilesTo middle ys stop := by
  induction xs generalizing start with
  | nil => simp [TilesTo]
  | cons b bs ih =>
    simp only [List.cons_append, TilesTo, ih]
    constructor
    · rintro ⟨hb, hmin, middle, hxs, hys⟩
      exact ⟨middle, ⟨hb, hmin, hxs⟩, hys⟩
    · rintro ⟨middle, ⟨hb, hmin, hxs⟩, hys⟩
      exact ⟨hb, hmin, middle, hxs, hys⟩

/-- One more block at the end of a tiling. -/
theorem tilesTo_concat_iff {b : Nat} :
    h.TilesTo start (blocks ++ [b]) stop ↔
      h.TilesTo start blocks (b - 1) ∧ 0 < b ∧ Header.minSize ≤ h.sizeOf b ∧
        b + h.sizeOf b = stop := by
  rw [tilesTo_append_iff]
  constructor
  · rintro ⟨middle, hxs, hb, hmin, hend⟩
    rw [Header.words] at hb
    subst hb
    exact ⟨hxs, Nat.succ_pos _, hmin, hend⟩
  · rintro ⟨hxs, hpos, hmin, hend⟩
    exact ⟨b - 1, hxs, by rw [Header.words]; omega, hmin, hend⟩

namespace TilesTo

theorem start_le (ht : h.TilesTo start blocks stop) : start ≤ stop := by
  induction blocks generalizing start with
  | nil => exact Nat.le_of_eq ht
  | cons b bs ih =>
    obtain ⟨hb, _, hrest⟩ := ht
    have := ih hrest
    omega

/-- All of a block lies between the ends of the tiling, and it has room for a link. -/
theorem bounds (ht : h.TilesTo start blocks stop) {b : Nat} (hb : b ∈ blocks) :
    start < b ∧ 1 ≤ h.sizeOf b ∧ b + h.sizeOf b ≤ stop := by
  induction blocks generalizing start with
  | nil => simp at hb
  | cons c bs ih =>
    obtain ⟨hc, hmin, hrest⟩ := ht
    have hle := hrest.start_le
    rw [Header.words] at hc
    rw [Header.minSize] at hmin
    rcases List.mem_cons.1 hb with rfl | hb
    · omega
    · have := ih hrest hb
      omega

/-- Every block takes two words at least. -/
theorem length_le (ht : h.TilesTo start blocks stop) : start + blocks.length ≤ stop := by
  induction blocks generalizing start with
  | nil => exact Nat.le_of_eq ht
  | cons b bs ih =>
    obtain ⟨hb, _, hrest⟩ := ht
    have := ih hrest
    rw [Header.words] at hb
    rw [List.length_cons]
    omega

/-- A tiling reads sizes only. -/
theorem congr (ht : h.TilesTo start blocks stop)
    (hsize : ∀ b ∈ blocks, h'.sizeOf b = h.sizeOf b) : h'.TilesTo start blocks stop := by
  induction blocks generalizing start with
  | nil => exact ht
  | cons b bs ih =>
    obtain ⟨hb, hmin, hrest⟩ := ht
    have hsb := hsize b (List.mem_cons_self ..)
    refine ⟨hb, by rw [hsb]; exact hmin, ?_⟩
    rw [hsb]
    exact ih hrest fun c hc => hsize c (List.mem_cons_of_mem _ hc)

/-- Each block ends in front of the header of any later one. -/
theorem pairwise (ht : h.TilesTo start blocks stop) :
    blocks.Pairwise fun b c => b + h.sizeOf b < c := by
  induction blocks generalizing start with
  | nil => exact List.Pairwise.nil
  | cons b bs ih =>
    obtain ⟨_, _, hrest⟩ := ht
    exact List.pairwise_cons.2 ⟨fun c hc => (hrest.bounds hc).1, ih hrest⟩

theorem sorted (ht : h.TilesTo start blocks stop) : blocks.Pairwise (· < ·) :=
  ht.pairwise.imp fun hbc => by omega

theorem nodup (ht : h.TilesTo start blocks stop) : blocks.Nodup :=
  ht.sorted.imp fun hbc => Nat.ne_of_lt hbc

/-- Two blocks share no word. -/
theorem disjoint (ht : h.TilesTo start blocks stop) {b c : Nat} (hb : b ∈ blocks)
    (hc : c ∈ blocks) (hne : b ≠ c) : b + h.sizeOf b < c ∨ c + h.sizeOf c < b := by
  induction blocks generalizing start with
  | nil => simp at hb
  | cons d bs ih =>
    obtain ⟨_, _, hrest⟩ := ht
    rcases List.mem_cons.1 hb with hbd | hbs <;> rcases List.mem_cons.1 hc with hcd | hcs
    · exact absurd (hbd.trans hcd.symm) hne
    · exact .inl (hbd ▸ (hrest.bounds hcs).1)
    · exact .inr (hcd ▸ (hrest.bounds hbs).1)
    · exact ih hrest hbs hcs

/-- The header of a block is no first payload word of another. -/
theorem header_ne (ht : h.TilesTo start blocks stop) {b c : Nat} (hb : b ∈ blocks)
    (hc : c ∈ blocks) : b - 1 ≠ c := by
  have := ht.bounds hb
  have := ht.bounds hc
  by_cases hne : b = c
  · omega
  · rcases ht.disjoint hb hc hne with hlt | hlt <;> omega

/-- No word belongs to two blocks. -/
theorem eq_of_covers (ht : h.TilesTo start blocks stop) {b c i : Nat} (hb : b ∈ blocks)
    (hc : c ∈ blocks) (hbi : h.Covers b i) (hci : h.Covers c i) : b = c := by
  by_contra hne
  obtain ⟨_, _⟩ := hbi
  obtain ⟨_, _⟩ := hci
  rcases ht.disjoint hb hc hne with hlt | hlt <;> omega

/-- Every word belongs to some block. -/
theorem exists_covers (ht : h.TilesTo start blocks stop) {i : Nat} (hlow : start ≤ i)
    (hhigh : i < stop) : ∃ b ∈ blocks, h.Covers b i := by
  induction blocks generalizing start with
  | nil =>
    have : start = stop := ht
    omega
  | cons b bs ih =>
    obtain ⟨hb, _, hrest⟩ := ht
    rw [Header.words] at hb
    by_cases hi : i < b + h.sizeOf b
    · exact ⟨b, List.mem_cons_self .., by omega, hi⟩
    · obtain ⟨c, hc, hci⟩ := ih hrest (by omega)
      exact ⟨c, List.mem_cons_of_mem _ hc, hci⟩

/-- A block that ends where the tiling does is the last one. -/
theorem eq_concat (ht : h.TilesTo start blocks stop) {b : Nat} (hb : b ∈ blocks)
    (hend : b + h.sizeOf b = stop) : ∃ front, blocks = front ++ [b] := by
  obtain ⟨front, back, rfl⟩ := List.append_of_mem hb
  cases back with
  | nil => exact ⟨front, rfl⟩
  | cons c back =>
    -- A later block would lie behind the end of the tiling.
    obtain ⟨_, _, _, _, hrest⟩ := tilesTo_append_iff.1 ht
    have := hrest.bounds (List.mem_cons_self ..)
    omega

/-- The sizes decide what the blocks are. -/
theorem unique (ht : h.TilesTo start blocks stop) {others : List Nat}
    (ho : h.TilesTo start others stop) : blocks = others := by
  induction blocks generalizing start others with
  | nil =>
    have hstop : start = stop := ht
    cases others with
    | nil => rfl
    | cons c cs =>
      have := ho.bounds (List.mem_cons_self ..)
      omega
  | cons b bs ih =>
    cases others with
    | nil =>
      have hstop : start = stop := ho
      have := ht.bounds (List.mem_cons_self ..)
      omega
    | cons c cs =>
      obtain ⟨hb, _, hrest⟩ := ht
      obtain ⟨hc, _, hcs⟩ := ho
      -- Both stand behind a header at the same place.
      have hbc : b = c := by rw [hb, hc]
      subst hbc
      rw [ih hrest hcs]

end TilesTo

end Heap

end ArenaHeap
