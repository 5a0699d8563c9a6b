import ArenaHeap.Proofs.Representation

namespace ArenaHeap

/-!
# Placing a heap

Where a heap starts decides about everything else: the words from there to the arena's end are
shared between bitmap and heap by one division. It gives the bitmap no word more than it needs, and
the only heaps refused are those too small for a block and those too large for a header.

* `Pointer.index?_eq_some_iff`, `Pointer.index?_eq_none_iff` — which pointers name a word, in terms
  of signed distances.
* `Layout.isLeast_bitmapFor` — no smaller bitmap would do.
* `Heap.JustPlaced` — what a heap is like that was just placed.
* `Arena.intoHeap_of_outside`, `Arena.intoHeap_of_index?` — what placing a heap comes to.
* `Arena.intoHeap_exact` — when a heap is refused, and what is placed otherwise.
-/

/-! ### Pointers as signed distances -/

namespace Pointer

/-- A pointer to a word of an arena of `length` words: its distance from the base is that of a whole
    word, and it lies in the arena. -/
def Names (p : Pointer) (length : Nat) : Prop :=
  p.toInt % Word.bytes = 0 ∧ 0 ≤ p.toInt ∧ p.toInt < length * Word.bytes

instance (p : Pointer) (length : Nat) : Decidable (p.Names length) :=
  inferInstanceAs (Decidable (_ ∧ _ ∧ _))

/-- Distances of `2 ^ 63` bytes and more are read as negative ones. -/
theorem toInt_eq (p : Pointer) : p.toInt =
    if p.offset.toNat < 1 <<< 63 then (p.offset.toNat : Int) else p.offset.toNat - 1 <<< 64 := by
  show p.offset.toBitVec.toInt = _
  have hoffset : p.offset.toBitVec.toNat = p.offset.toNat := rfl
  rw [BitVec.toInt_eq_toNat_cond, hoffset]
  split <;> split <;> omega

/-- The pointer to an address, for an arena that lies at the address `base`. -/
def ofAddress (base address : UInt64) : Pointer := ⟨address - base⟩

/-- The distance is the difference of the two addresses, both read as signed numbers. -/
theorem toInt_ofAddress (base address : UInt64) :
    (ofAddress base address).toInt = (address.toInt64 - base.toInt64).toInt := rfl

variable {p : Pointer} {words i : Nat}

/-- The index that a pointer names is its distance from the base in words. -/
theorem index?_eq_some_iff (hw : words < 1 <<< 30) :
    p.index? words = some i ↔ p.toInt = i * Word.bytes ∧ i < words := by
  have := p.offset.toNat_lt
  rw [toInt_eq, Word.bytes]
  unfold index?
  split <;> split
  all_goals simp only [Word.bytes, Option.some.injEq, reduceCtorEq, false_iff] at *
  all_goals omega

theorem index?_eq_none_iff (hw : words < 1 <<< 30) : p.index? words = none ↔ ¬ p.Names words := by
  have := p.offset.toNat_lt
  rw [Names, toInt_eq, Word.bytes]
  unfold index?
  split <;> split
  all_goals simp only [Word.bytes, reduceCtorEq, false_iff, true_iff] at *
  all_goals omega

end Pointer

namespace Arena

/-- An arena can lie at an address: it is that of a whole word, and the arena ends where the address
    space does at the latest. -/
def LiesAt (a : Arena) (base : UInt64) : Prop :=
  base.toNat % Word.bytes = 0 ∧ base.toNat + a.sizeBytes ≤ 1 <<< 64

instance (a : Arena) (base : UInt64) : Decidable (a.LiesAt base) :=
  inferInstanceAs (Decidable (_ ∧ _))

/-- The addresses of an arena's words are the multiples of the word size from its base on up to its
    end. -/
theorem LiesAt.names_iff {a : Arena} {base : UInt64} (hbase : a.LiesAt base) (address : UInt64) :
    (Pointer.ofAddress base address).Names a.length ↔ address.toNat % Word.bytes = 0 ∧
      base.toNat ≤ address.toNat ∧ address.toNat < base.toNat + a.sizeBytes := by
  obtain ⟨haligned, hend⟩ := hbase
  have := base.toNat_lt
  have := address.toNat_lt
  have := a.addressable
  have hoffset : (Pointer.ofAddress base address).offset.toNat =
      (2 ^ 64 - base.toNat + address.toNat) % 2 ^ 64 := UInt64.toNat_sub ..
  rw [Pointer.Names, Pointer.toInt_eq, hoffset]
  simp only [sizeBytes, Word.bytes] at *
  split <;> omega

end Arena

/-! ### The three regions -/

namespace Layout

/-- No smaller bitmap has a bit for every word that it leaves to the heap. -/
theorem isLeast_bitmapFor {rest : Nat} (hrest : 0 < rest) :
    IsLeast {n | n ≤ rest ∧ rest - n ≤ n * Word.bits} (bitmapFor rest) := by
  simp only [bitmapFor, Word.bits]
  constructor
  · show _ ∧ _
    omega
  · rintro n ⟨hle, hcover⟩
    omega

/-- The words that are left to the heap behind some reserved words and the bitmap. -/
def heapFor (length reserved : Nat) : Nat := length - reserved - bitmapFor (length - reserved)

theorem place_of_outside {length : Nat} {start : Pointer} (h : length < 1 <<< 30)
    (hi : start.index? length = none) :
    place length h start = .error (.invalidHeapStart start.toInt) := by
  unfold place
  split
  · rfl
  · simp_all

/-- What placing a heap behind some reserved words comes to. -/
theorem place_cases {length reserved : Nat} {start : Pointer} (h : length < 1 <<< 30)
    (hi : start.index? length = some reserved) :
    (heapFor length reserved < 2 ∧
      place length h start = .error (.heapTooSmall (heapFor length reserved))) ∨
    (1 <<< 24 < heapFor length reserved ∧
      place length h start = .error (.heapTooLarge (heapFor length reserved))) ∨
    (2 ≤ heapFor length reserved ∧ heapFor length reserved ≤ 1 <<< 24 ∧
      ∃ placed, place length h start = .ok placed ∧ placed.val.reserved = reserved ∧
        placed.val.bitmap = bitmapFor (length - reserved) ∧
        placed.val.heap = heapFor length reserved) := by
  unfold place
  split
  · simp_all
  rename_i found hfound
  obtain rfl : reserved = found := Option.some.inj (hi.symm.trans hfound)
  have hl : Header.maxSize < heapFor length reserved - Header.words ↔
      1 <<< 24 < heapFor length reserved := by
    rw [Header.words, Header.maxSize]
    omega
  by_cases hs : heapFor length reserved < 2
  · exact .inl ⟨hs, dif_pos hs⟩
  by_cases hlarge : 1 <<< 24 < heapFor length reserved
  · exact .inr (.inl ⟨hlarge, (dif_neg hs).trans (dif_pos (hl.2 hlarge))⟩)
  · exact .inr (.inr ⟨by omega, by omega, _,
      (dif_neg hs).trans (dif_neg (mt hl.1 hlarge)), rfl, rfl, rfl⟩)

end Layout

/-! ### A heap that was just placed -/

variable {L : Layout}

namespace Heap

/-- A heap that was just placed in an arena, behind so many reserved words and words of bits. -/
structure JustPlaced (h : Heap L) (a : Arena) (reserved bitmap heap : Nat) : Prop where
  reserved_eq : L.reserved = reserved
  bitmap_eq : L.bitmap = bitmap
  heap_eq : L.heap = heap
  /-- The bitmap starts where the reserved words end, the heap starts where the bitmap ends, and
      both the heap and the arena end where the words of the heap are used up. -/
  heapStart_eq : L.heapStart = reserved + bitmap
  heapEnd_eq : L.heapEnd = reserved + bitmap + heap
  length_eq : a.length = reserved + bitmap + heap
  /-- The bit of every heap word lies in the bitmap, and all bits there are clear. -/
  bitWord_mem : ∀ i, L.InHeap i → reserved ≤ L.bitWord i ∧ L.bitWord i < reserved + bitmap
  word_bitmap : ∀ j, reserved ≤ j → j < reserved + bitmap → h.word j = 0
  /-- The reserved words are those of the arena. -/
  reserved_words : h.reserved = a.words.extract 0 reserved
  /-- One free block fills the heap, and it is all that is on the lists of free blocks. -/
  blocks_eq : h.blocks = .ok #[⟨reserved + bitmap + 1, Tag.free, heap - 1, false⟩]
  freeList_eq : h.freeList commonList = .ok #[VAddr.ofIndex (reserved + bitmap + 1)]
  freeList_ne : ∀ n : Fin listCount, n ≠ commonList → h.freeList n = .ok #[]

theorem justPlaced_fresh {a : Arena} {words : Vector Word L.size} (hwords : words.toArray = a.words)
    (hsize : L.size = a.length) :
    (fresh L words).JustPlaced a L.reserved L.bitmap L.heap := by
  have ho := ordered_fresh L words
  refine ⟨rfl, rfl, rfl, rfl, rfl, hsize.symm, fun i hi => ?bitWord_mem, ?word_bitmap,
    ?reserved_words, ?blocks_eq, ?freeList_eq, fun n hn => ho.freeList_of_ne hn⟩
  case bitWord_mem =>
    exact ⟨Nat.le_add_right .., hi.hasBit.bitWord_lt⟩
  case word_bitmap =>
    intro j hlow (hhigh : j < L.heapStart)
    rw [word_fresh, if_neg (by rw [Layout.firstBlock]; omega), if_neg (by omega),
      if_pos ⟨hlow, hhigh⟩]
  case reserved_words =>
    rw [← hwords]
    exact reserved_eq_extract fun j hj => word_fresh_reserved words hj
  case blocks_eq =>
    rw [blocks_eq_ok _ (tiles_iff.2 ho.tiles), List.map_singleton, info_fresh]
    rfl
  case freeList_eq =>
    rw [ho.freeList, freeOf_fresh]
    rfl

end Heap

namespace Arena

variable {a : Arena} {start : Pointer}

/-- A start that names no word is refused. -/
theorem intoHeap_of_outside (hi : start.index? a.length = none) :
    a.intoHeap start = .error (.invalidHeapStart start.toInt) :=
  intoHeap_of_place_error (Layout.place_of_outside a.addressable hi)

/-- What placing a heap at a word of an arena comes to. -/
theorem intoHeap_of_index? {reserved : Nat} (hi : start.index? a.length = some reserved) :
    (Layout.heapFor a.length reserved < 2 ∧
      a.intoHeap start = .error (.heapTooSmall (Layout.heapFor a.length reserved))) ∨
    (1 <<< 24 < Layout.heapFor a.length reserved ∧
      a.intoHeap start = .error (.heapTooLarge (Layout.heapFor a.length reserved))) ∨
    (2 ≤ Layout.heapFor a.length reserved ∧ Layout.heapFor a.length reserved ≤ 1 <<< 24 ∧
      ∃ (L : Layout) (h : Heap L), a.intoHeap start = .ok ⟨L, h⟩ ∧
        h.JustPlaced a reserved (Layout.bitmapFor (a.length - reserved))
          (Layout.heapFor a.length reserved)) := by
  rcases Layout.place_cases a.addressable hi with ⟨hs, hplace⟩ | ⟨hl, hplace⟩ |
    ⟨hs, hl, ⟨L, hL⟩, hplace, rfl, hbitmap, hheap⟩
  · exact .inl ⟨hs, intoHeap_of_place_error hplace⟩
  · exact .inr (.inl ⟨hl, intoHeap_of_place_error hplace⟩)
  · refine .inr (.inr ⟨hs, hl, L, _, intoHeap_of_place hplace, ?_⟩)
    rw [← hbitmap, ← hheap]
    exact Heap.justPlaced_fresh rfl hL

/-- **Placing a heap.** A start is refused just when it names no word of the arena: its address is
    not that of a whole word between the arena's base and its end. Otherwise the bitmap is the
    smallest one that has a bit for every word it leaves to the heap; the heap is refused just when
    it has fewer than two words, or more than `2 ^ 24`, and else it is placed. -/
theorem intoHeap_exact (a : Arena) (start : Pointer) :
    (∀ base address, a.LiesAt base → start = .ofAddress base address →
      start.toInt = (address.toInt64 - base.toInt64).toInt ∧
      (start.Names a.length ↔ address.toNat % Word.bytes = 0 ∧
        base.toNat ≤ address.toNat ∧ address.toNat < base.toNat + a.sizeBytes)) ∧
    (a.intoHeap start = .error (.invalidHeapStart start.toInt) ↔ ¬ start.Names a.length) ∧
    (start.Names a.length → ∃ reserved bitmap : Nat,
      start.toInt = reserved * Word.bytes ∧ reserved < a.length ∧
      let rest := a.length - reserved
      let heap := rest - bitmap
      IsLeast {n | n ≤ rest ∧ rest - n ≤ n * Word.bits} bitmap ∧
      (a.intoHeap start = .error (.heapTooSmall heap) ↔ heap < 2) ∧
      (a.intoHeap start = .error (.heapTooLarge heap) ↔ 1 <<< 24 < heap) ∧
      (2 ≤ heap → heap ≤ 1 <<< 24 → ∃ (L : Layout) (h : Heap L),
        a.intoHeap start = .ok ⟨L, h⟩ ∧ h.JustPlaced a reserved bitmap heap)) := by
  refine ⟨?_, ?_⟩
  · rintro base address hbase rfl
    exact ⟨Pointer.toInt_ofAddress base address, hbase.names_iff address⟩
  rcases hi : start.index? a.length with _ | reserved
  · have hout := (Pointer.index?_eq_none_iff a.addressable).1 hi
    exact ⟨iff_of_true (intoHeap_of_outside hi) hout, fun hin => absurd hin hout⟩
  obtain ⟨hstart, hlt⟩ := (Pointer.index?_eq_some_iff a.addressable).1 hi
  have hin : start.Names a.length := by
    rw [Pointer.Names, hstart, Word.bytes]
    omega
  have hleast := Layout.isLeast_bitmapFor (Nat.sub_pos_of_lt hlt)
  rcases intoHeap_of_index? hi with ⟨hs, hrun⟩ | ⟨hl, hrun⟩ | ⟨hs, hl, L, h, hrun, hplaced⟩
  · rw [Layout.heapFor] at hs hrun
    refine ⟨by simp [hrun, hin], fun _ => ⟨reserved, _, hstart, hlt, hleast,
      iff_of_true hrun hs, ?_, fun hs' => absurd hs' (Nat.not_le.2 hs)⟩⟩
    rw [hrun]
    exact iff_of_false (by simp) (by omega)
  · rw [Layout.heapFor] at hl hrun
    refine ⟨by simp [hrun, hin], fun _ => ⟨reserved, _, hstart, hlt, hleast, ?_,
      iff_of_true hrun hl, fun _ hl' => absurd hl' (Nat.not_le.2 hl)⟩⟩
    rw [hrun]
    exact iff_of_false (by simp) (by omega)
  · rw [Layout.heapFor] at hs hl hplaced
    refine ⟨by simp [hrun, hin], fun _ => ⟨reserved, _, hstart, hlt, hleast, ?_, ?_,
      fun _ _ => ⟨L, h, hrun, hplaced⟩⟩⟩
    · rw [hrun]
      exact iff_of_false (by simp) (Nat.not_lt.2 hs)
    · rw [hrun]
      exact iff_of_false (by simp) (Nat.not_lt.2 hl)

/-- Behind one reserved word of sixteen there is room for one word of bits and fourteen of heap; a
    byte in front of the base nothing can start. -/
theorem intoHeap_exact_small :
    Arena.small.intoHeap (.ofInt (-1)) = .error (.invalidHeapStart (-1)) ∧
      Pointer.Names (.ofIndex 1) Arena.small.length ∧
      ∃ (L : Layout) (h : Heap L), Arena.small.intoHeap (.ofIndex 1) = .ok ⟨L, h⟩ ∧
        h.JustPlaced Arena.small 1 1 14 := by
  have hin : Pointer.Names (.ofIndex 1) Arena.small.length := by decide
  have hstart₁ : (Pointer.ofIndex 1).toInt = 4 := by decide
  obtain ⟨_, hrefused, _⟩ := intoHeap_exact Arena.small (.ofInt (-1))
  obtain ⟨_, _, hall⟩ := intoHeap_exact Arena.small (.ofIndex 1)
  obtain ⟨reserved, bitmap, hstart, _, hleast, _, _, hplaced⟩ := hall hin
  obtain rfl : reserved = 1 := by
    rw [hstart₁, Word.bytes] at hstart
    omega
  obtain rfl : bitmap = 1 := hleast.unique (Layout.isLeast_bitmapFor (by decide))
  exact ⟨hrefused.2 (by decide), hin, hplaced (by decide) (by decide)⟩

end Arena

end ArenaHeap
