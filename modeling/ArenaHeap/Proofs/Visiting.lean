import ArenaHeap.Collect.Mark
import Mathlib.Logic.Relation

namespace ArenaHeap

/-!
# Marking candidate by candidate

What a trace does with the candidate on top of its work-list does not depend on the others that
wait there. `Heap.look` is that part of it, and `Heap.trace_cons` says that a trace is nothing but
looks. So the order in which candidates are taken can be varied while what is done with each of
them stays the same.

* `Heap.Looks` — all that a look can come to.
* `Tracing`, `Tracing.turn` — a trace in progress, and one turn of its loop.
* `Tracing.Takes` — one turn that takes any of the pending candidates.
* `Tracing.takes_wellFounded` — in whichever order they are taken, on whatever the words hold,
  marking ends.
* `Tracing.takes_result` — the order of the work-list is one of them.
-/

variable {L : Layout}

/-! ### One candidate -/

namespace Heap

/-- Looks at a candidate. If it names a block with its bit set, the bit is cleared, and the result
    is those payload words that are addresses in the heap. -/
def look (h : Heap L) (v : VAddr) : Except Fault (Option (List VAddr)) × Heap L :=
  if v.Aligned then
    if L.InHeap v.index then
      if h.bit v.index then
        let visited := h.clearBit v.index
        match visited.payloadAt v.index with
        | .ok payload => (.ok (some (payload.toList.filter (L.Spans ·))), visited)
        | .error fault => (.error fault, visited)
      else
        (.ok none, h)
    else
      (.error (.bitOutside v.index L.heapStart L.heapEnd), h)
  else
    (.ok none, h)

/-- All that a look at a candidate can come to. -/
inductive Looks (h : Heap L) (v : VAddr) : Except Fault (Option (List VAddr)) × Heap L → Prop
  /-- No address of a whole word. -/
  | scalar : ¬ v.Aligned → Looks h v (.ok none, h)
  /-- A word whose bit is clear. -/
  | clear : v.Aligned → L.InHeap v.index → h.bit v.index = false → Looks h v (.ok none, h)
  | outside : v.Aligned → ¬ L.InHeap v.index →
      Looks h v (.error (.bitOutside v.index L.heapStart L.heapEnd), h)
  | block {payload : Array Word} : v.Aligned → L.InHeap v.index → h.bit v.index = true →
      (h.clearBit v.index).payloadAt v.index = .ok payload →
      Looks h v (.ok (some (payload.toList.filter (L.Spans ·))), h.clearBit v.index)
  /-- A block whose payload does not lie in the arena. -/
  | overrun {fault : Fault} : v.Aligned → L.InHeap v.index → h.bit v.index = true →
      (h.clearBit v.index).payloadAt v.index = .error fault →
      Looks h v (.error fault, h.clearBit v.index)

theorem looks (h : Heap L) (v : VAddr) : h.Looks v (h.look v) := by
  unfold look
  split
  · rename_i hal
    split
    · rename_i hin
      split
      · rename_i hbit
        dsimp only
        split
        · rename_i hpay
          exact .block hal hin hbit hpay
        · rename_i hpay
          exact .overrun hal hin hbit hpay
      · rename_i hbit
        exact .clear hal hin (by simpa using hbit)
    · rename_i hout
      exact .outside hal hout
  · rename_i hal
    exact .scalar hal

/-- Looking at a candidate sets no bit. -/
theorem bitCount_look_le (h : Heap L) (v : VAddr) : (h.look v).2.bitCount ≤ h.bitCount := by
  have hlook := h.looks v
  generalize h.look v = x at hlook
  cases hlook with
  | scalar | clear | outside => exact Nat.le_refl _
  | block _ hin hbit _ | overrun _ hin hbit _ =>
    exact Nat.le_of_lt (h.bitCount_clearBit_lt hin hbit)

/-- A look that finds new candidates clears a bit. -/
theorem bitCount_look_lt {h : Heap L} {v : VAddr} {words : List VAddr}
    (hlook : (h.look v).1 = .ok (some words)) : (h.look v).2.bitCount < h.bitCount := by
  have hl := h.looks v
  generalize h.look v = x at hl hlook
  cases hl with
  | block _ hin hbit _ => exact h.bitCount_clearBit_lt hin hbit
  | scalar | clear | outside | overrun => cases hlook

end Heap

/-- The last payload word comes first on the work-list. -/
theorem Layout.pend_eq (payload : Array Word) (pending : List VAddr) :
    L.pend payload pending = (payload.toList.filter (L.Spans ·)).reverse ++ pending := by
  obtain ⟨payload⟩ := payload
  rw [pend, List.foldl_toArray]
  induction payload generalizing pending with
  | nil => rfl
  | cons w ws ih =>
    rw [List.foldl_cons, ih]
    by_cases hw : L.Spans w <;> simp [hw]

/-- A trace looks at the candidate on top, and goes on with what that finds on top of the others. -/
theorem Heap.trace_cons (h : Heap L) (v : VAddr) (pending : List VAddr) (marked : Nat) :
    h.trace (v :: pending) marked =
      match h.look v with
      | (.ok none, h) => h.trace pending marked
      | (.ok (some words), h) => h.trace (words.reverse ++ pending) (marked + 1)
      | (.error fault, h) => (.error fault, h) := by
  have hlook := h.looks v
  generalize h.look v = x at hlook
  rw [trace]
  cases hlook with
  | scalar hal => rw [if_neg hal]
  | clear hal hin hbit => rw [if_pos hal, if_pos hin, if_neg (by simp [hbit])]
  | outside hal hout => rw [if_pos hal, if_neg hout]
  | block hal hin hbit hpay =>
    rw [if_pos hal, if_pos hin, if_pos hbit]
    simp only [hpay, Layout.pend_eq]
  | overrun hal hin hbit hpay =>
    rw [if_pos hal, if_pos hin, if_pos hbit]
    simp only [hpay]

/-! ### Turns -/

/-- Where a trace stands. -/
inductive Tracing (L : Layout) where
  /-- It goes on with what is pending. -/
  | going (h : Heap L) (pending : List VAddr) (marked : Nat)
  | ended (outcome : Except Fault Nat) (h : Heap L)

namespace Tracing

/-- Takes one candidate while the others wait. -/
def take (h : Heap L) (v : VAddr) (rest : List VAddr) (marked : Nat) : Tracing L :=
  match h.look v with
  | (.ok none, h) => .going h rest marked
  | (.ok (some words), h) => .going h (words.reverse ++ rest) (marked + 1)
  | (.error fault, h) => .ended (.error fault) h

/-- One turn of the loop: the candidate on top of the work-list is taken. -/
def turn : Tracing L → Tracing L
  | .going h [] marked => .ended (.ok marked) h
  | .going h (v :: pending) marked => take h v pending marked
  | .ended outcome h => .ended outcome h

/-- What the trace comes to. -/
def result : Tracing L → Except Fault Nat × Heap L
  | .going h pending marked => h.trace pending marked
  | .ended outcome h => (outcome, h)

theorem result_take (h : Heap L) (v : VAddr) (rest : List VAddr) (marked : Nat) :
    (take h v rest marked).result = h.trace (v :: rest) marked := by
  rw [Heap.trace_cons, take]
  generalize h.look v = x
  rcases x with ⟨_ | (_ | _), _⟩ <;> rfl

theorem result_turn (s : Tracing L) : s.turn.result = s.result := by
  match s with
  | .going h [] marked => simp [turn, result, Heap.trace]
  | .going h (v :: pending) marked => exact result_take h v pending marked
  | .ended _ _ => rfl

/-- One turn that takes any of the pending candidates, wherever it stands on the work-list. -/
inductive Takes : Tracing L → Tracing L → Prop
  | last {h : Heap L} {marked : Nat} : Takes (.going h [] marked) (.ended (.ok marked) h)
  | one {h : Heap L} {pending rest : List VAddr} {v : VAddr} {marked : Nat} :
      pending.Perm (v :: rest) → Takes (.going h pending marked) (take h v rest marked)

theorem takes_turn (h : Heap L) (pending : List VAddr) (marked : Nat) :
    (going h pending marked).Takes (going h pending marked).turn := by
  cases pending with
  | nil => exact .last
  | cons v rest => exact .one (.refl _)

/-- How much is left to do: bits to clear, then candidates to look at. -/
def left : Tracing L → Nat × Nat
  | .going h pending _ => (h.bitCount, pending.length + 1)
  | .ended _ h => (h.bitCount, 0)

/-- There is less left to do if no bit was set and fewer candidates are pending. -/
theorem lex_of_le {bits bits' length length' : Nat} (hbits : bits' ≤ bits)
    (hlength : length' < length) :
    Prod.Lex (· < ·) (· < ·) (bits', length') (bits, length) := by
  rcases Nat.lt_or_eq_of_le hbits with hlt | rfl
  · exact .left _ _ hlt
  · exact .right _ hlength

theorem Takes.left_lt {s t : Tracing L} (ht : s.Takes t) :
    Prod.Lex (· < ·) (· < ·) t.left s.left := by
  cases ht with
  | last => exact lex_of_le (Nat.le_refl _) (Nat.succ_pos _)
  | @one h pending rest v marked hp =>
    have hlength : rest.length < pending.length := by simp [hp.length_eq]
    have hle := h.bitCount_look_le v
    unfold take
    split
    · rename_i hlook
      rw [hlook] at hle
      exact lex_of_le hle (Nat.succ_lt_succ hlength)
    · rename_i hlook
      have hlt : (h.look v).2.bitCount < h.bitCount := Heap.bitCount_look_lt (by rw [hlook])
      rw [hlook] at hlt
      exact .left _ _ hlt
    · rename_i hlook
      rw [hlook] at hle
      exact lex_of_le hle (Nat.succ_pos _)

/-- **Marking ends.** Whatever the words hold, and in whichever order candidates are taken, there
    are only finitely many turns. -/
theorem takes_wellFounded : WellFounded fun t s : Tracing L => s.Takes t :=
  Subrelation.wf Takes.left_lt (InvImage.wf left (Prod.lex Nat.lt_wfRel Nat.lt_wfRel).wf)

/-- Last in, first out is one of the orders. -/
theorem takes_result (s : Tracing L) :
    Relation.ReflTransGen Takes s (.ended s.result.1 s.result.2) := by
  induction s using takes_wellFounded.induction with
  | _ s ih =>
    match s with
    | .ended _ _ => exact .refl
    | .going h pending marked =>
      have ht := takes_turn h pending marked
      have hrun := ih _ ht
      rw [result_turn] at hrun
      exact .head ht hrun

end Tracing

end ArenaHeap
