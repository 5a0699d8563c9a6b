import ArenaHeap.Heap.FreeList
import ArenaHeap.Proofs.Frame

namespace ArenaHeap

/-!
# The links of the list of free blocks

`Heap.Links` says that following the links from an address passes through some blocks and then
stands at another address. The list of free blocks is such a path from its head to the null
address; a sweep builds it from the front, so the end of the path is a parameter.

* `Heap.links_append_iff`, `Heap.links_concat_iff` — a path is cut at any place.
* `Heap.Links.relinked` — writing the place where a path ends moves its end.
* `Heap.Links.freeList_eq_ok`, `Heap.Links.search_eq_ok` — listing and searching a list that ends:
  the search finds the first block on it that is large enough.
-/

variable {L : Layout}

namespace Heap

/-- Following the links from `v` passes through the blocks, one after the other, and then stands
    at `last`. -/
def Links (h : Heap L) : (v : VAddr) → (blocks : List Nat) → (last : VAddr) → Prop
  | v, [], last => v = last
  | v, b :: bs, last => v = VAddr.ofIndex b ∧ h.Links (h.linkOf b) bs last

variable {h h' : Heap L} {v last : VAddr} {blocks : List Nat}

theorem links_append_iff {xs ys : List Nat} :
    h.Links v (xs ++ ys) last ↔ ∃ middle, h.Links v xs middle ∧ h.Links middle ys last := by
  induction xs generalizing v with
  | nil => simp [Links]
  | cons b bs ih =>
    simp only [List.cons_append, Links, ih]
    constructor
    · rintro ⟨hv, middle, hxs, hys⟩
      exact ⟨middle, ⟨hv, hxs⟩, hys⟩
    · rintro ⟨middle, ⟨hv, hxs⟩, hys⟩
      exact ⟨hv, middle, hxs, hys⟩

/-- The last block of a path holds the address at which the path ends. -/
theorem links_concat_iff {b : Nat} :
    h.Links v (blocks ++ [b]) last ↔
      h.Links v blocks (VAddr.ofIndex b) ∧ h.linkOf b = last := by
  rw [links_append_iff]
  constructor
  · rintro ⟨middle, hxs, rfl, hb⟩
    exact ⟨hxs, hb⟩
  · rintro ⟨hxs, hb⟩
    exact ⟨_, hxs, rfl, hb⟩

/-- A path reads the links of its blocks only. -/
theorem Links.congr (hl : h.Links v blocks last) (hw : ∀ b ∈ blocks, h'.word b = h.word b) :
    h'.Links v blocks last := by
  induction blocks generalizing v with
  | nil => exact hl
  | cons b bs ih =>
    obtain ⟨hv, hrest⟩ := hl
    refine ⟨hv, ?_⟩
    rw [linkOf, hw b (List.mem_cons_self ..)]
    exact ih hrest fun c hc => hw c (List.mem_cons_of_mem _ hc)

/-! ### Relinking -/

@[simp] theorem head_withHead (h : Heap L) (v : VAddr) :
    (h.withHead v).heads.get commonList = v := get_set_self h.heads commonList v

theorem word_relinked (h : Heap L) {pred : Option Nat} {i : Nat} (hi : pred ≠ some i)
    (next : VAddr) : (h.relinked pred next).word i = h.word i := by
  cases pred with
  | none => rfl
  | some b => exact h.word_put_ne (fun hb => hi (congrArg some hb)) next

/-- Relinking moves the end of the path from the head. -/
theorem Links.relinked (hl : h.Links (h.heads.get commonList) blocks last)
    (hnodup : blocks.Nodup) (hin : ∀ b ∈ blocks, b < L.size) (next : VAddr) :
    (h.relinked blocks.getLast? next).Links
      ((h.relinked blocks.getLast? next).heads.get commonList) blocks next := by
  rcases List.eq_nil_or_concat' blocks with rfl | ⟨front, b, rfl⟩
  · exact head_withHead h next
  · rw [List.getLast?_concat]
    have hb : b < L.size := hin b (by simp)
    have hfresh : ∀ c ∈ front, b ≠ c := by
      intro c hc hbc
      rw [List.nodup_append] at hnodup
      exact hnodup.2.2 c hc b (by simp) hbc.symm
    refine links_concat_iff.2 ⟨?_, h.word_put_self hb next⟩
    -- The links in front of the last block are not written.
    exact (links_concat_iff.1 hl).1.congr fun c hc => h.word_put_ne (hfresh c hc) next

/-! ### Listing and searching -/

/-- Listing a path that ends gives the addresses of its blocks. -/
theorem linksFrom_eq_ok (hl : h.Links v blocks VAddr.null) (hin : ∀ b ∈ blocks, L.InHeap b)
    {steps : Nat} (hsteps : blocks.length ≤ steps) (seen : Array VAddr) :
    h.linksFrom v seen steps = .ok (seen ++ (blocks.map VAddr.ofIndex).toArray) := by
  -- By induction on the path; each step of the walk leaves one block of it behind.
  induction blocks generalizing v seen steps with
  | nil =>
    have hv : v = VAddr.null := hl
    rw [linksFrom.eq_def, if_pos hv]
    simp
  | cons b bs ih =>
    obtain ⟨hv, hrest⟩ := hl
    have hb := hin b (List.mem_cons_self ..)
    have hpos : 0 < b := Nat.lt_of_lt_of_le L.heapStart_pos hb.1
    rw [List.length_cons] at hsteps
    obtain ⟨steps, rfl⟩ : ∃ n, steps = n + 1 := ⟨steps - 1, by omega⟩
    rw [linksFrom.eq_def, if_neg (hv ▸ VAddr.ofIndex_ne_null hb.lt hpos)]
    simp only [hv, VAddr.index_ofIndex hb.lt, h.link_eq_ok hb.lt_size]
    rw [ih hrest (fun c hc => hin c (List.mem_cons_of_mem _ hc)) (by omega)]
    simp

/-- The first block of a list that is large enough, with the one in front of it. -/
def firstFit (h : Heap L) (size : Nat) : (pred : Option Nat) → (blocks : List Nat) → Option Fit
  | _, [] => none
  | pred, b :: bs => if size ≤ h.sizeOf b then some ⟨pred, b⟩ else h.firstFit size (some b) bs

theorem firstFit_eq_none_iff {size : Nat} {pred : Option Nat} :
    h.firstFit size pred blocks = none ↔ ∀ b ∈ blocks, h.sizeOf b < size := by
  induction blocks generalizing pred with
  | nil => simp [firstFit]
  | cons b bs ih =>
    rw [List.forall_mem_cons, firstFit]
    by_cases hb : size ≤ h.sizeOf b
    · simp [hb, Nat.not_lt.2 hb]
    · simp [hb, ih, Nat.lt_of_not_le hb]

/-- The first fit is a matter of the sizes. -/
theorem firstFit_congr {size : Nat} {pred : Option Nat}
    (hsize : ∀ b ∈ blocks, h'.sizeOf b = h.sizeOf b) :
    h'.firstFit size pred blocks = h.firstFit size pred blocks := by
  induction blocks generalizing pred with
  | nil => rfl
  | cons b bs ih =>
    rw [firstFit, firstFit, hsize b (List.mem_cons_self ..),
      ih fun c hc => hsize c (List.mem_cons_of_mem _ hc)]

/-- A fit cuts the list: all blocks in front of it are too small. -/
theorem firstFit_eq_some {size : Nat} {pred : Option Nat} {fit : Fit}
    (hf : h.firstFit size pred blocks = some fit) :
    ∃ front back, blocks = front ++ fit.block :: back ∧ size ≤ h.sizeOf fit.block ∧
      (∀ b ∈ front, h.sizeOf b < size) ∧ fit.pred = front.getLast?.or pred := by
  induction blocks generalizing pred with
  | nil => simp [firstFit] at hf
  | cons b bs ih =>
    by_cases hb : size ≤ h.sizeOf b
    · simp only [firstFit, hb, if_true, Option.some.injEq] at hf
      subst hf
      exact ⟨[], bs, rfl, hb, by simp, rfl⟩
    · simp only [firstFit, hb, if_false] at hf
      obtain ⟨front, back, rfl, hfit, hfront, hpred⟩ := ih hf
      refine ⟨b :: front, back, rfl, hfit, ?_, ?_⟩
      · exact List.forall_mem_cons.2 ⟨Nat.lt_of_not_le hb, hfront⟩
      · rw [hpred, List.getLast?_cons]
        cases front.getLast? <;> rfl

/-- Searching a path that ends finds its first block that is large enough. -/
theorem searchFrom_eq_ok (hl : h.Links v blocks VAddr.null) (hin : ∀ b ∈ blocks, L.InHeap b)
    {steps : Nat} (hsteps : blocks.length ≤ steps) (size : Nat) (pred : Option Nat) :
    h.searchFrom size pred v steps = .ok (h.firstFit size pred blocks) := by
  induction blocks generalizing v pred steps with
  | nil =>
    have hv : v = VAddr.null := hl
    rw [searchFrom.eq_def, if_pos hv]
    rfl
  | cons b bs ih =>
    obtain ⟨hv, hrest⟩ := hl
    have hb := hin b (List.mem_cons_self ..)
    have hpos : 0 < b := Nat.lt_of_lt_of_le L.heapStart_pos hb.1
    rw [List.length_cons] at hsteps
    obtain ⟨steps, rfl⟩ : ∃ n, steps = n + 1 := ⟨steps - 1, by omega⟩
    rw [searchFrom.eq_def, if_neg (hv ▸ VAddr.ofIndex_ne_null hb.lt hpos)]
    simp only [hv, VAddr.index_ofIndex hb.lt, h.link_eq_ok hb.lt_size,
      h.sizeAt_eq_ok hpos (Nat.le_of_lt hb.lt_size)]
    by_cases hfit : size ≤ h.sizeOf b
    · simp [firstFit, hfit]
    · rw [if_neg hfit, ih hrest (fun c hc => hin c (List.mem_cons_of_mem _ hc)) (by omega)]
      simp [firstFit, hfit]

/-! ### The list as a whole -/

/-- No list of heap words without repetitions is longer than a walk may take. -/
theorem length_le_of_inHeap (hnodup : blocks.Nodup) (hin : ∀ b ∈ blocks, L.InHeap b) :
    blocks.length ≤ L.size + 1 := by
  have hsub : blocks ⊆ List.range L.size := fun b hb => List.mem_range.2 (hin b hb).lt_size
  have hle := (List.subperm_of_subset hnodup hsub).length_le
  rw [List.length_range] at hle
  omega

section List

variable (hl : h.Links (h.heads.get commonList) blocks VAddr.null) (hnodup : blocks.Nodup)
  (hin : ∀ b ∈ blocks, L.InHeap b)

include hl hnodup hin

/-- A list of free blocks that ends is listed from its head. -/
theorem Links.freeList_eq_ok :
    h.freeList commonList = .ok (blocks.map VAddr.ofIndex).toArray := by
  have hlist := linksFrom_eq_ok hl hin (length_le_of_inHeap hnodup hin) #[]
  rw [Array.empty_append] at hlist
  rw [freeList, dif_pos commonList.isLt]
  exact hlist

/-- Searching a list of free blocks that ends finds its first block that is large enough. -/
theorem Links.search_eq_ok (size : Nat) : h.search size = .ok (h.firstFit size none blocks) :=
  searchFrom_eq_ok hl hin (length_le_of_inHeap hnodup hin) size none

end List

end Heap

end ArenaHeap
