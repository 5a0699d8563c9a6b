import ArenaHeap.Proofs.RegularUse

namespace ArenaHeap

/-!
# Bits apart from each other

The bits of 32 heap words share a word of the bitmap, the last such word may have bits to spare, and
the bitmap shares one array with the heap it describes. For all that a bit behaves as a variable of
its own.

* `Heap.wordBit_setBit`, `Heap.wordBit_clearBit` — every bit of the arena after one was changed.
* `Heap.bits_independent` — what follows for the bits of heap words.
-/

variable {L : Layout}

/-! ### Bits of a word -/

namespace Word

theorem testBit_single {p : Nat} (hp : p < bits) (q : Nat) :
    (single p).toNat.testBit q = decide (p = q) := by
  by_cases hq : q < bits
  · exact getLsbD_single hp hq
  · have hpq : p ≠ q := fun hpq => hq (hpq ▸ hp)
    rw [decide_eq_false hpq]
    exact BitVec.getLsbD_of_ge _ _ (Nat.le_of_not_lt hq)

theorem testBit_or_single (w : Word) {p : Nat} (hp : p < bits) (q : Nat) :
    (w ||| single p).toNat.testBit q = (decide (p = q) || w.toNat.testBit q) := by
  rw [UInt32.toNat_or, Nat.testBit_or, testBit_single hp, Bool.or_comm]

theorem testBit_and_not_single (w : Word) {p : Nat} (hp : p < bits) (q : Nat) :
    (w &&& ~~~single p).toNat.testBit q = (!decide (p = q) && w.toNat.testBit q) := by
  have hnot : (~~~single p).toNat.testBit q = (decide (q < bits) && !decide (p = q)) := by
    rw [← testBit_single hp]
    exact BitVec.getLsbD_not
  rw [UInt32.toNat_and, Nat.testBit_and, hnot]
  by_cases hq : q < bits
  · rw [decide_eq_true hq, Bool.true_and, Bool.and_comm]
  · have hw : w.toNat.testBit q = false := BitVec.getLsbD_of_ge _ _ (Nat.le_of_not_lt hq)
    rw [hw, Bool.false_and, Bool.and_false]

end Word

/-! ### Bits of the arena -/

/-- The index of a bitmap word. -/
def Layout.InBitmap (L : Layout) (k : Nat) : Prop := L.reserved ≤ k ∧ k < L.heapStart

instance (L : Layout) (k : Nat) : Decidable (L.InBitmap k) := inferInstanceAs (Decidable (_ ∧ _))

theorem Layout.InHeap.inBitmap {i : Nat} (hi : L.InHeap i) : L.InBitmap (L.bitWord i) :=
  ⟨Nat.le_add_right .., hi.hasBit.bitWord_lt⟩

namespace Heap

variable {h h' : Heap L} {i : Nat} {b : Bool}

/-- The bit at a place of the word at an index, the lowest first. -/
def wordBit (h : Heap L) (k place : Nat) : Bool := (h.word k).toNat.testBit place

theorem word_eq_of_wordBit {k : Nat} (hbits : ∀ q, h'.wordBit k q = h.wordBit k q) :
    h'.word k = h.word k :=
  UInt32.toNat_inj.1 (Nat.eq_of_testBit_eq hbits)

theorem bitAt_of_inHeap (h : Heap L) (hi : L.InHeap i) :
    h.bitAt i = .ok (h.wordBit (L.bitWord i) (L.bitPlace i)) :=
  if_pos hi

theorem bitAt_of_not_inHeap (h : Heap L) (hi : ¬ L.InHeap i) :
    h.bitAt i = .error (.bitOutside i L.heapStart L.heapEnd) :=
  if_neg hi

/-- Setting a bit changes no other bit of the arena. -/
theorem wordBit_setBit (h : Heap L) (hi : L.InHeap i) (k q : Nat) : (h.setBit i).wordBit k q =
    if k = L.bitWord i ∧ q = L.bitPlace i then true else h.wordBit k q := by
  rw [setBit, wordBit, word_put, wordBit]
  by_cases hk : L.bitWord i = k
  · subst hk
    rw [if_pos ⟨rfl, L.bitWord_lt_size hi⟩, Word.testBit_or_single _ (L.bitPlace_lt i)]
    by_cases hq : L.bitPlace i = q
    · rw [if_pos ⟨rfl, hq.symm⟩, decide_eq_true hq, Bool.true_or]
    · rw [if_neg fun hc => hq hc.2.symm, decide_eq_false hq, Bool.false_or]
  · rw [if_neg fun hc => hk hc.1, if_neg fun hc => hk hc.1.symm]

/-- Neither does clearing one. -/
theorem wordBit_clearBit (h : Heap L) (hi : L.InHeap i) (k q : Nat) : (h.clearBit i).wordBit k q =
    if k = L.bitWord i ∧ q = L.bitPlace i then false else h.wordBit k q := by
  rw [clearBit, wordBit, word_put, wordBit]
  by_cases hk : L.bitWord i = k
  · subst hk
    rw [if_pos ⟨rfl, L.bitWord_lt_size hi⟩, Word.testBit_and_not_single _ (L.bitPlace_lt i)]
    by_cases hq : L.bitPlace i = q
    · rw [if_pos ⟨rfl, hq.symm⟩, decide_eq_true hq, Bool.not_true, Bool.false_and]
    · rw [if_neg fun hc => hq hc.2.symm, decide_eq_false hq, Bool.not_false, Bool.true_and]
  · rw [if_neg fun hc => hk hc.1, if_neg fun hc => hk hc.1.symm]

/-! ### Bits of heap words -/

/-- The second heap differs from the first one in the bit of heap word `i` at most, and there that
    bit is `b`. -/
structure Turned (h h' : Heap L) (i : Nat) (b : Bool) : Prop where
  bitAt_self : h'.bitAt i = .ok b
  bitAt_ne : ∀ j, j ≠ i → h'.bitAt j = h.bitAt j
  word_eq : ∀ k, ¬ L.InBitmap k → h'.word k = h.word k
  /-- Also bits that belong to no heap word are left alone. -/
  wordBit_eq : ∀ k q, ¬ (k = L.bitWord i ∧ q = L.bitPlace i) → h'.wordBit k q = h.wordBit k q
  heads_eq : h'.heads = h.heads
  counters_eq : h'.counters = h.counters

theorem turned_of_wordBit (hi : L.InHeap i)
    (hbits : ∀ k q, h'.wordBit k q =
      if k = L.bitWord i ∧ q = L.bitPlace i then b else h.wordBit k q)
    (hheads : h'.heads = h.heads) (hcounters : h'.counters = h.counters) : h.Turned h' i b where
  bitAt_self := by rw [h'.bitAt_of_inHeap hi, hbits, if_pos ⟨rfl, rfl⟩]
  bitAt_ne j hji := by
    by_cases hj : L.InHeap j
    · -- Two heap words that share a word of the bitmap have different places in it.
      have hother : ¬ (L.bitWord j = L.bitWord i ∧ L.bitPlace j = L.bitPlace i) :=
        fun ⟨hw, hp⟩ => hji (L.eq_of_bitWord_eq hj.1 hi.1 hw hp)
      rw [h'.bitAt_of_inHeap hj, h.bitAt_of_inHeap hj, hbits, if_neg hother]
    · rw [h'.bitAt_of_not_inHeap hj, h.bitAt_of_not_inHeap hj]
  word_eq k hk := by
    refine word_eq_of_wordBit fun q => ?_
    rw [hbits, if_neg]
    rintro ⟨rfl, _⟩
    exact hk hi.inBitmap
  wordBit_eq k q hkq := by rw [hbits, if_neg hkq]
  heads_eq := hheads
  counters_eq := hcounters

/-- **Independent bits.** The bit of a heap word lies in the bitmap, 32 to a word and the lowest
    first, counted from the heap's start; it is set or cleared without a change to any other. No
    word outside the heap has a bit: to ask for it, to set it and to clear it is a fault, and
    nothing changes. -/
theorem bits_independent (h : Heap L) (i : Nat) :
    (L.InHeap i →
      L.InBitmap (L.reserved + (i - L.heapStart) / 32) ∧
      h.bitAt i =
        .ok (h.wordBit (L.reserved + (i - L.heapStart) / 32) ((i - L.heapStart) % 32)) ∧
      (∃ s, HeapM.setBit i h = (.ok (), s) ∧ h.Turned s i true) ∧
      ∃ c, HeapM.clearBit i h = (.ok (), c) ∧ h.Turned c i false) ∧
    (¬ L.InHeap i →
      h.bitAt i = .error (.bitOutside i L.heapStart L.heapEnd) ∧
      HeapM.setBit i h = (.error (.bitOutside i L.heapStart L.heapEnd), h) ∧
      HeapM.clearBit i h = (.error (.bitOutside i L.heapStart L.heapEnd), h)) := by
  refine ⟨fun hi => ?inside, fun hi => ⟨h.bitAt_of_not_inHeap hi, if_neg hi, if_neg hi⟩⟩
  refine ⟨hi.inBitmap, h.bitAt_of_inHeap hi, ⟨_, HeapM.setBit_apply h hi, ?set⟩,
    _, HeapM.clearBit_apply h hi, ?clear⟩
  case set => exact turned_of_wordBit hi (h.wordBit_setBit hi) rfl rfl
  case clear => exact turned_of_wordBit hi (h.wordBit_clearBit hi) rfl rfl

/-- Behind one reserved word and one word of bits the word 5 has the bit 3, and the arena's end has
    none. -/
theorem bits_independent_small :
    Layout.small.InHeap 5 ∧ ¬ Layout.small.InHeap 16 ∧
      small.bitAt 5 = .ok (small.wordBit 1 3) ∧
      (∃ s, HeapM.setBit 5 small = (.ok (), s) ∧ small.Turned s 5 true ∧ s.word 1 = 8) ∧
      HeapM.setBit 16 small = (.error (.bitOutside 16 2 16), small) := by
  have hin : Layout.small.InHeap 5 := by decide
  have hout : ¬ Layout.small.InHeap 16 := by decide
  obtain ⟨_, hbit, ⟨s, hrun, hturned⟩, _⟩ := (bits_independent small 5).1 hin
  obtain ⟨_, hrefused, _⟩ := (bits_independent small 16).2 hout
  refine ⟨hin, hout, hbit, ⟨s, hrun, hturned, ?_⟩, hrefused⟩
  have hs : s = small.setBit 5 := by
    rw [HeapM.setBit_apply small hin] at hrun
    exact (congrArg Prod.snd hrun).symm
  subst hs
  decide +kernel

end Heap

end ArenaHeap
