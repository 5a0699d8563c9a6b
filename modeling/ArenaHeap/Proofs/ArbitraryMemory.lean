import ArenaHeap.Heap.Tiling
import ArenaHeap.Proofs.Marking
import ArenaHeap.Proofs.Sweep.Repair

namespace ArenaHeap

/-!
# Operations on arbitrary memory

Stores through stale pointers can leave anything in the words of a heap: headers with wrong sizes,
blocks that overlap, links that lead nowhere or round in a circle. Nothing here assumes more than
that the words, the bits and the list heads are there. All operations that a collection is made of
still end, and a sweep leaves a list of free blocks that can be followed to its end.

* `Tracing.turnsLeft`, `Tracing.turn_iterate` — marking is over after so many turns.
* `Heap.Harmless` — what marking changes.
* `Heap.exists_walkFrom` — the block walk.
* `Heap.Repaired` — the list of free blocks that a sweep leaves.
* `Heap.arbitrary_memory` — all of it.
-/

variable {L : Layout}

/-! ### Marking -/

namespace Heap

variable {h : Heap L} {b n : Nat}

theorem size_of_slice {words : Array Word} (hwords : h.slice b n = .ok words) :
    words.size = n := by
  unfold slice at hwords
  split at hwords
  · cases hwords
    have hsize : h.words.toArray.size = L.size := h.words.size_toArray
    rw [Array.size_extract, hsize]
    omega
  · cases hwords

/-- No payload is longer than a header can say. -/
theorem size_payloadAt_le {payload : Array Word} (hpay : h.payloadAt b = .ok payload) :
    payload.size ≤ Header.maxSize := by
  rw [payloadAt] at hpay
  cases hsize : h.sizeAt b with
  | error fault =>
    rw [hsize] at hpay
    cases hpay
  | ok n =>
    rw [hsize] at hpay
    rw [size_of_slice hpay]
    exact le_of_sizeAt hsize

end Heap

namespace Tracing

/-- The heap that a trace has come to. -/
def heap : Tracing L → Heap L
  | .going h _ _ => h
  | .ended _ h => h

/-- A bound on the turns that a trace can still take: each candidate takes one, and each block that
    is visited adds no more candidates than a payload can have words. -/
def turnsLeft : Tracing L → Nat
  | .going h pending _ => h.bitCount * Header.maxSize + pending.length + 1
  | .ended _ _ => 0

theorem turnsLeft_turn_lt (h : Heap L) (pending : List VAddr) (marked : Nat) :
    (going h pending marked).turn.turnsLeft < (going h pending marked).turnsLeft := by
  cases pending with
  | nil => exact Nat.succ_pos _
  | cons v rest =>
    have hlook := h.looks v
    rw [turn, take]
    generalize h.look v = x at hlook
    cases hlook with
    | scalar | clear => simp [turnsLeft]
    | outside | overrun => simp [turnsLeft]
    | @block payload _ hin hbit hpay =>
      have hlt := h.bitCount_clearBit_lt hin hbit
      have hsize := Heap.size_payloadAt_le hpay
      have hfilter := List.length_filter_le (fun w => decide (L.Spans w)) payload.toList
      have hmul : (h.clearBit v.index).bitCount * Header.maxSize + Header.maxSize ≤
          h.bitCount * Header.maxSize := by
        rw [← Nat.succ_mul]
        exact Nat.mul_le_mul_right _ hlt
      simp only [turnsLeft, List.length_append, List.length_reverse, List.length_cons,
        Array.length_toList] at *
      omega

/-- **Marking ends.** After as many turns as are left a trace is over, with its result. -/
theorem turn_iterate {n : Nat} {s : Tracing L} (hn : s.turnsLeft ≤ n) :
    turn^[n] s = .ended s.result.1 s.result.2 := by
  induction n generalizing s with
  | zero =>
    cases s with
    | going h pending marked => exact absurd hn (by simp [turnsLeft])
    | ended outcome h => rfl
  | succ n ih =>
    rw [Function.iterate_succ_apply, ← result_turn]
    refine ih ?_
    cases s with
    | going h pending marked =>
      have := turnsLeft_turn_lt h pending marked
      omega
    | ended outcome h => exact Nat.zero_le _

/-- A turn does nothing to the heap but to clear the bit of a heap word, if that. -/
theorem heap_turn (s : Tracing L) :
    ∃ cleared, (∀ b ∈ cleared, L.InHeap b) ∧ s.turn.heap = s.heap.clearBits cleared := by
  have hnone : ∀ b ∈ ([] : List Nat), L.InHeap b := fun b hb => absurd hb List.not_mem_nil
  match s with
  | .ended _ _ => exact ⟨[], hnone, rfl⟩
  | .going _ [] _ => exact ⟨[], hnone, rfl⟩
  | .going h (v :: rest) _ =>
    have hlook := h.looks v
    rw [turn, take]
    generalize h.look v = x at hlook
    cases hlook with
    | scalar | clear | outside => exact ⟨[], hnone, rfl⟩
    | block _ hin _ _ | overrun _ hin _ _ =>
      exact ⟨[v.index], List.forall_mem_singleton.2 hin, rfl⟩

theorem heap_turn_iterate (n : Nat) (s : Tracing L) :
    ∃ cleared, (∀ b ∈ cleared, L.InHeap b) ∧ (turn^[n] s).heap = s.heap.clearBits cleared := by
  induction n generalizing s with
  | zero => exact ⟨[], fun b hb => absurd hb List.not_mem_nil, rfl⟩
  | succ n ih =>
    obtain ⟨first, hfirst, hturn⟩ := heap_turn s
    obtain ⟨later, hlater, hturns⟩ := ih s.turn
    refine ⟨later ++ first, List.forall_mem_append.2 ⟨hlater, hfirst⟩, ?_⟩
    rw [Function.iterate_succ_apply, hturns, hturn, Heap.clearBits_append]

end Tracing

namespace Heap

/-- Marking from a candidate ends, with a fault or without, and changes nothing but bits, which it
    clears. -/
structure Harmless (h : Heap L) (v : VAddr) : Prop where
  ends : Tracing.turn^[h.bitCount * Header.maxSize + 2] (.going h [v] 0) =
    .ended (HeapM.mark v h).1 (HeapM.mark v h).2
  word_eq : ∀ j, j < L.reserved ∨ L.heapStart ≤ j → (HeapM.mark v h).2.word j = h.word j
  bit_of_bit : ∀ i, L.HasBit i → (HeapM.mark v h).2.bit i = true → h.bit i = true
  heads_eq : (HeapM.mark v h).2.heads = h.heads
  counters_eq : (HeapM.mark v h).2.counters = h.counters

theorem harmless (h : Heap L) (v : VAddr) : h.Harmless v := by
  have hends : Tracing.turn^[h.bitCount * Header.maxSize + 2] (.going h [v] 0) =
      .ended (HeapM.mark v h).1 (HeapM.mark v h).2 := Tracing.turn_iterate (Nat.le_refl _)
  obtain ⟨cleared, hin, hheap⟩ := Tracing.heap_turn_iterate
    (h.bitCount * Header.maxSize + 2) (.going h [v] 0)
  rw [hends] at hheap
  replace hheap : (HeapM.mark v h).2 = h.clearBits cleared := hheap
  refine ⟨hends, fun j hj => ?_, fun i hi hbit => ?_, ?_, ?_⟩
  · rw [hheap, word_clearBits hin hj]
  · rw [hheap, bit_clearBits hin hi.1, Bool.and_eq_true] at hbit
    exact hbit.1
  · rw [hheap, heads_clearBits]
  · rw [hheap, counters_clearBits]

/-! ### The block walk -/

/-- Walking on from a block meets no fault and takes no more turns than there are words ahead. -/
theorem exists_walkFrom (h : Heap L) (index : Nat) (hlow : L.firstBlock ≤ index)
    (found : Array BlockInfo) :
    ∃ all, h.walkFrom index found = .ok all ∧ all.size ≤ found.size + (L.heapEnd - index) := by
  by_cases hend : index < L.heapEnd
  · have hin : L.InHeap index := ⟨Nat.le_of_lt hlow, hend⟩
    obtain ⟨all, hall, hsize⟩ := h.exists_walkFrom
      (index + (h.info index).size + Header.words) (by omega) (found.push (h.info index))
    refine ⟨all, ?_, ?_⟩
    · rw [walkFrom, if_pos hend, h.describe_eq_ok hin (Nat.lt_of_lt_of_le (Nat.succ_pos _) hlow)]
      exact hall
    · rw [Array.size_push, Header.words] at hsize
      omega
  · exact ⟨found, by rw [walkFrom, if_neg hend], Nat.le_add_right ..⟩
termination_by L.heapEnd - index
decreasing_by rw [Header.words]; omega

/-! ### The list that a sweep leaves -/

/-- The list of free blocks can be followed from its head to its end, through ascending places of
    the heap. -/
structure Repaired (h : Heap L) (list : List VAddr) : Prop where
  freeList : h.freeList commonList = .ok list.toArray
  ascending : list.Pairwise (· < ·)
  aligned : ∀ v ∈ list, v.Aligned
  inside : ∀ v ∈ list, VAddr.ofIndex L.firstBlock ≤ v ∧ v < L.limit
  /-- A request finds a free block or finds that there is none. -/
  searched : ∀ size, ∃ fit, h.search size = .ok fit

/-- Ending the list behind a sweep is the last thing to do. -/
theorem Mended.repaired {h : Heap L} {stop : Nat} {free : List Nat} (hm : h.Mended stop free) :
    (h.relinked free.getLast? VAddr.null).Repaired (free.map VAddr.ofIndex) := by
  have hin : ∀ f ∈ free, L.InHeap f := by
    intro f hf
    obtain ⟨hlow, hhigh⟩ := hm.inHeap f hf
    exact ⟨Nat.le_trans (Nat.le_add_right ..) hlow, hhigh⟩
  have htoNat : ∀ f ∈ free, (VAddr.ofIndex f).toNat = f * 4 :=
    fun f hf => VAddr.toNat_ofIndex (hin f hf).lt
  obtain ⟨v, hlinks⟩ := hm.exists_links
  have hl := hlinks.relinked hm.nodup (fun f hf => (hin f hf).lt_size) VAddr.null
  refine ⟨hl.freeList_eq_ok hm.nodup hin, ?ascending, ?aligned, ?inside,
    fun size => ⟨_, hl.search_eq_ok hm.nodup hin size⟩⟩
  case ascending =>
    refine List.pairwise_map.2 (hm.apart.imp_of_mem fun {f g} hf hg hlt => ?_)
    rw [UInt32.lt_iff_toNat_lt, htoNat f hf, htoNat g hg]
    omega
  case aligned =>
    exact List.forall_mem_map.2 fun f hf => VAddr.aligned_ofIndex (hin f hf).lt
  case inside =>
    refine List.forall_mem_map.2 fun f hf => ?_
    obtain ⟨hlow, hhigh⟩ := hm.inHeap f hf
    have hsize := L.size_lt
    have hfirst : (VAddr.ofIndex L.firstBlock).toNat = L.firstBlock * 4 :=
      VAddr.toNat_ofIndex (Nat.lt_of_le_of_lt hlow (hin f hf).lt)
    have hlimit : L.limit.toNat = L.heapEnd * 4 := VAddr.toNat_ofIndex hsize
    rw [UInt32.le_iff_toNat_le, UInt32.lt_iff_toNat_lt, htoNat f hf, hfirst, hlimit]
    omega

/-- **Repair.** Whatever the words of the heap are, a sweep meets no fault, its loop takes no more
    turns than the heap has words, and the list of free blocks that it leaves can be followed. -/
theorem exists_sweep (h : Heap L) :
    ∃ last r g list,
      HeapM.sweepWithin L.firstBlock none {} L.heap h = (.ok (some (last, r)), g) ∧
      HeapM.sweep h = (.ok r, g.relinked last VAddr.null) ∧
      (g.relinked last VAddr.null).Repaired list := by
  have hturns : L.heapEnd ≤ L.firstBlock + L.heap := by
    rw [Layout.firstBlock, Layout.heapEnd, Layout.size, Layout.heapStart]
    omega
  obtain ⟨stop, free, r, g, hfrom, hwithin, hm⟩ :=
    HeapM.sweepFrom_mended (Mended.initial h L.firstBlock) (Nat.le_refl _) {} hturns
  rw [List.getLast?_nil] at hfrom
  refine ⟨free.getLast?, r, g, free.map VAddr.ofIndex, hwithin, ?_, hm.repaired⟩
  have hlast : ∀ f ∈ free.getLast?, f < L.size :=
    fun f hf => (hm.inHeap f (List.mem_of_getLast? hf)).2
  show (HeapM.sweepFrom L.firstBlock none {} >>= fun _ => _) h = _
  rw [HeapM.bind_apply hfrom]
  exact HeapM.bind_apply (HeapM.relink_apply g hlast _)

/-- **Arbitrary memory.** Whatever the words, the bits and the list heads are, marking from a root
    ends and changes nothing but bits, the block walk and the sweep end without a fault, and the
    list of free blocks that the sweep leaves can be followed to its end. -/
theorem arbitrary_memory (h : Heap L) :
    (∀ root : Pointer, h.Harmless root.vaddr) ∧
    (∃ found, h.blocks = .ok found ∧ found.size ≤ L.heap) ∧
    ∃ last r g list,
      HeapM.sweepWithin L.firstBlock none {} L.heap h = (.ok (some (last, r)), g) ∧
      HeapM.sweep h = (.ok r, g.relinked last VAddr.null) ∧
      (g.relinked last VAddr.null).Repaired list := by
  refine ⟨fun root => h.harmless _, ?_, h.exists_sweep⟩
  obtain ⟨found, hfound, hsize⟩ := h.exists_walkFrom L.firstBlock (Nat.le_refl _) #[]
  refine ⟨found, hfound, ?_⟩
  rw [Layout.firstBlock, Layout.heapEnd, Layout.size, Layout.heapStart] at hsize
  simp only [Array.size_empty] at hsize
  omega

end Heap

end ArenaHeap
