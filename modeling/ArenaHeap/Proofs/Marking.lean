import ArenaHeap.Collect.Collection
import ArenaHeap.Collect.Reachable
import ArenaHeap.Proofs.Ordered
import ArenaHeap.Proofs.Visiting

namespace ArenaHeap

/-!
# Marking visits what is reachable

Marking changes nothing but bits: the heap afterwards is `Heap.clearBits` of the blocks visited.
While it runs, every block visited is reachable, and whatever a visited block or a past candidate
refers to is visited or pending; so when nothing is pending the blocks visited are closed, and
hence are all that is reachable.

* `Heap.Visits` — what was visited on top of some blocks is sound and leaves nothing out.
* `Heap.visits_of_takes`, `Heap.trace_visits` — one trace visits like that, in whichever order its
  candidates are taken.
* `Heap.markAll_eq` — the traces of all candidates together visit each reachable block once.
-/

variable {L : Layout}

namespace Heap

/-! ### Clearing bits -/

/-- The heap with the bits of some blocks cleared, the last one first. -/
def clearBits (h : Heap L) : List Nat → Heap L
  | [] => h
  | b :: bs => (h.clearBits bs).clearBit b

variable {h : Heap L} {visited : List Nat}

theorem clearBits_append (h : Heap L) (later first : List Nat) :
    h.clearBits (later ++ first) = (h.clearBits first).clearBits later := by
  induction later with
  | nil => rfl
  | cons b bs ih => rw [List.cons_append, clearBits, clearBits, ih]

@[simp] theorem heads_clearBits (h : Heap L) (visited : List Nat) :
    (h.clearBits visited).heads = h.heads := by
  induction visited with
  | nil => rfl
  | cons b bs ih => exact ih

@[simp] theorem counters_clearBits (h : Heap L) (visited : List Nat) :
    (h.clearBits visited).counters = h.counters := by
  induction visited with
  | nil => rfl
  | cons b bs ih => exact ih

/-- Only words of the bitmap change. -/
theorem word_clearBits (hin : ∀ b ∈ visited, L.InHeap b) {j : Nat}
    (hj : j < L.reserved ∨ L.heapStart ≤ j) : (h.clearBits visited).word j = h.word j := by
  induction visited with
  | nil => rfl
  | cons b bs ih =>
    rw [clearBits, word_clearBit _ ((hin b (List.mem_cons_self ..)).ne_bitWord hj)]
    exact ih fun c hc => hin c (List.mem_cons_of_mem _ hc)

theorem bit_clearBits (hin : ∀ b ∈ visited, L.InHeap b) {i : Nat} (hi : L.heapStart ≤ i) :
    (h.clearBits visited).bit i = (h.bit i && !decide (i ∈ visited)) := by
  induction visited with
  | nil => simp [clearBits]
  | cons b bs ih =>
    rw [clearBits, bit_clearBit _ (hin b (List.mem_cons_self ..)) hi,
      ih fun c hc => hin c (List.mem_cons_of_mem _ hc)]
    by_cases hib : b = i
    · subst hib
      simp
    · simp [hib, Ne.symm hib]

theorem sizeOf_clearBits (hin : ∀ b ∈ visited, L.InHeap b) {b : Nat} (hb : L.heapStart < b) :
    (h.clearBits visited).sizeOf b = h.sizeOf b :=
  sizeOf_congr (word_clearBits hin (.inr (by omega)))

theorem payloadOf_clearBits (hin : ∀ b ∈ visited, L.InHeap b) {b : Nat}
    (hb : L.heapStart < b) : (h.clearBits visited).payloadOf b = h.payloadOf b :=
  payloadOf_congr (sizeOf_clearBits hin hb) fun _ _ => word_clearBits hin (.inr (by omega))

/-! ### One trace -/

/-- The payloads of the allocated blocks lie in the arena, so marking can read them. -/
def Contained (h : Heap L) : Prop :=
  ∀ b, h.Allocated b → L.heapStart < b ∧ b + h.sizeOf b ≤ L.size

theorem Ordered.contained {blocks : List Nat} (ho : h.Ordered blocks) : h.Contained := by
  intro b hb
  have := ho.bounds (ho.allocated_iff.1 hb).1
  exact ⟨this.1, this.2.2⟩

/-- The allocated blocks that a set of blocks refers to are in it. -/
def Closed (h : Heap L) (visited inside : List Nat) : Prop :=
  ∀ c ∈ visited, ∀ b, h.Allocated b → VAddr.ofIndex b ∈ h.payloadOf c → b ∈ inside

/-- The allocated blocks that candidates name are in a set. -/
def Named (h : Heap L) (candidates : List VAddr) (inside : List Nat) : Prop :=
  ∀ b, h.Allocated b → VAddr.ofIndex b ∈ candidates → b ∈ inside

/-- A closed set that holds what the candidates name holds all that is reachable. -/
theorem Reachable.mem_of_closed {candidates : List VAddr} (hclosed : h.Closed visited visited)
    (hnamed : h.Named candidates visited) {b : Nat} (hr : h.Reachable candidates b) :
    b ∈ visited := by
  induction hr with
  | candidate ha hv => exact hnamed _ ha hv
  | word _ ha hv ih => exact hclosed _ ih _ ha hv

theorem mem_pend {payload : List Word} {pending : List VAddr} {w : Word} :
    w ∈ L.pend payload.toArray pending ↔ w ∈ payload ∧ L.Spans w ∨ w ∈ pending := by
  rw [Layout.pend_eq]
  simp

/-- What is reachable once the payload of a block is pending is reachable while the block itself
    is. -/
theorem Reachable.of_pend {pending : List VAddr} {c b : Nat} (hc : h.Allocated c)
    (hr : h.Reachable (L.pend (h.payloadOf c).toArray pending) b) :
    h.Reachable (VAddr.ofIndex c :: pending) b := by
  induction hr with
  | candidate ha hmem =>
    rcases mem_pend.1 hmem with ⟨hw, _⟩ | hp
    · exact .word (.candidate hc (List.mem_cons_self ..)) ha hw
    · exact .candidate ha (List.mem_cons_of_mem _ hp)
  | word _ ha hw ih => exact .word ih ha hw

/-- A block whose bit is still set when others were visited is allocated, and none of them. -/
theorem bit_clearBits_eq_true (hvis : ∀ b ∈ visited, h.Allocated b) {c : Nat}
    (hc : L.InHeap c) : (h.clearBits visited).bit c = true ↔ h.Allocated c ∧ c ∉ visited := by
  rw [bit_clearBits (fun b hb => (hvis b hb).1) hc.1]
  simp [Allocated, hc]

/-- The payload of a block that is being visited can be read, and is as it was. -/
theorem payloadAt_clearBits (hc : h.Contained) (hvis : ∀ b ∈ visited, h.Allocated b) {c : Nat}
    (hca : h.Allocated c) :
    (h.clearBits visited).payloadAt c = .ok (h.payloadOf c).toArray := by
  have hin : ∀ b ∈ visited, L.InHeap b := fun b hb => (hvis b hb).1
  obtain ⟨hlow, hhigh⟩ := hc c hca
  rw [payloadAt_eq_ok _ (by omega) (by rw [sizeOf_clearBits hin hlow]; exact hhigh),
    payloadOf_clearBits hin hlow]

/-- While a heap in order is marked, a candidate in the heap or misaligned either names no block
    that is still to be visited, or it names one, and then its payload words in the heap are
    found. -/
theorem look_clearBits (hc : h.Contained) (hvis : ∀ b ∈ visited, h.Allocated b) {v : VAddr}
    (hv : L.Spans v ∨ ¬ v.Aligned) :
    ((h.clearBits visited).look v = (.ok none, h.clearBits visited) ∧
      ∀ b, h.Allocated b → VAddr.ofIndex b = v → b ∈ visited) ∨
    ∃ c, v = VAddr.ofIndex c ∧ h.Allocated c ∧ c ∉ visited ∧ (h.clearBits visited).look v =
      (.ok (some ((h.payloadOf c).filter (L.Spans ·))), h.clearBits (c :: visited)) := by
  have hlook := (h.clearBits visited).looks v
  generalize (h.clearBits visited).look v = x at hlook
  cases hlook with
  | scalar hal =>
    refine .inl ⟨rfl, ?_⟩
    rintro b ha rfl
    exact absurd (VAddr.aligned_ofIndex ha.1.lt) hal
  | clear hal hin hbit =>
    refine .inl ⟨rfl, ?_⟩
    -- The bit of an allocated block is clear only once the block was visited.
    rintro b ha rfl
    rw [VAddr.index_ofIndex ha.1.lt] at hbit
    by_contra hfresh
    rw [(bit_clearBits_eq_true hvis ha.1).2 ⟨ha, hfresh⟩] at hbit
    cases hbit
  | outside hal hout =>
    -- A candidate is no address of a word outside the heap.
    rcases hv with hs | hs
    · exact absurd (hs.inHeap hal) hout
    · exact absurd hal hs
  | block hal hin hbit hpay =>
    obtain ⟨hca, hfresh⟩ := (bit_clearBits_eq_true hvis hin).1 hbit
    have hread := payloadAt_clearBits hc (List.forall_mem_cons.2 ⟨hca, hvis⟩) hca
    obtain rfl := Except.ok.inj (hread.symm.trans hpay)
    exact .inr ⟨v.index, (VAddr.ofIndex_index hal).symm, hca, hfresh, rfl⟩
  | overrun hal hin hbit hpay =>
    -- Payloads of allocated blocks can be read.
    obtain ⟨hca, _⟩ := (bit_clearBits_eq_true hvis hin).1 hbit
    have hread := payloadAt_clearBits hc (List.forall_mem_cons.2 ⟨hca, hvis⟩) hca
    cases hread.symm.trans hpay

/-- A candidate that names a block with its bit set is visited, and its payload is pending. -/
theorem trace_visit {g : Heap L} {v : VAddr} {pending : List VAddr} {marked : Nat}
    {payload : Array Word} (hal : v.Aligned) (hin : L.InHeap v.index)
    (hbit : g.bit v.index = true)
    (hpay : (g.clearBit v.index).payloadAt v.index = .ok payload) :
    g.trace (v :: pending) marked =
      (g.clearBit v.index).trace (L.pend payload pending) (marked + 1) := by
  rw [trace, if_pos hal, if_pos hin, if_pos hbit]
  simp only [hpay]

/-- On top of the blocks visited before, `more` is visited from some candidates: each block once,
    only what the candidates reach, and all that they or the new blocks refer to. -/
structure Visits (h : Heap L) (visited : List Nat) (candidates : List VAddr)
    (more : List Nat) : Prop where
  nodup : (more ++ visited).Nodup
  reachable : ∀ b ∈ more, h.Reachable candidates b
  named : h.Named candidates (more ++ visited)
  closed : h.Closed more (more ++ visited)

namespace Visits

variable {more later : List Nat} {v : VAddr} {pending : List VAddr} {c : Nat}

/-- What is visited depends on the candidates as a set only. -/
theorem congr {others : List VAddr} (hm : h.Visits visited pending more)
    (hmem : ∀ v, v ∈ pending ↔ v ∈ others) :
    h.Visits visited others more where
  nodup := hm.nodup
  reachable := fun b hb => (hm.reachable b hb).mono fun v hv => (hmem v).1 hv
  named := fun b ha hb => hm.named b ha ((hmem _).2 hb)
  closed := hm.closed

/-- Nothing is left to visit without candidates. -/
theorem nil (hnodup : visited.Nodup) : h.Visits visited [] [] where
  nodup := hnodup
  reachable := fun _ hb => absurd hb List.not_mem_nil
  named := fun _ _ hb => absurd hb List.not_mem_nil
  closed := fun _ hc => absurd hc List.not_mem_nil

/-- A candidate adds nothing if the block that it names, if any, was visited. -/
theorem skip (hm : h.Visits visited pending more)
    (hv : ∀ b, h.Allocated b → VAddr.ofIndex b = v → b ∈ visited) :
    h.Visits visited (v :: pending) more where
  nodup := hm.nodup
  reachable := fun b hb => (hm.reachable b hb).mono fun _ hw => List.mem_cons_of_mem _ hw
  named := by
    intro b ha hb
    rcases List.mem_cons.1 hb with hb | hb
    · exact List.mem_append_right _ (hv b ha hb)
    · exact hm.named b ha hb
  closed := hm.closed

/-- A candidate that names a new block adds the block and all that its payload leads to. -/
theorem visit (hca : h.Allocated c)
    (hm : h.Visits (c :: visited) (L.pend (h.payloadOf c).toArray pending) more) :
    h.Visits visited (VAddr.ofIndex c :: pending) (more ++ [c]) := by
  have hshift : more ++ c :: visited = (more ++ [c]) ++ visited := by simp
  refine ⟨hshift ▸ hm.nodup, ?reachable, ?named, ?closed⟩
  case reachable =>
    intro b hb
    rcases List.mem_append.1 hb with hb | hb
    · exact .of_pend hca (hm.reachable b hb)
    · rw [List.mem_singleton.1 hb]
      exact .candidate hca (List.mem_cons_self ..)
  case named =>
    intro b ha hb
    rw [← hshift]
    rcases List.mem_cons.1 hb with hb | hb
    · have hbc : b = c := by
        rw [← VAddr.index_ofIndex ha.1.lt, hb, VAddr.index_ofIndex hca.1.lt]
      rw [hbc]
      exact List.mem_append_right _ (List.mem_cons_self ..)
    · exact hm.named b ha (mem_pend.2 (.inr hb))
  case closed =>
    intro d hd b ha hb
    rw [← hshift]
    rcases List.mem_append.1 hd with hd | hd
    · exact hm.closed d hd b ha hb
    · rw [List.mem_singleton] at hd
      subst hd
      -- The payload words that lie in the heap were put on the work-list.
      have hs : L.Spans (VAddr.ofIndex b) := (Layout.spans_ofIndex ha.1.lt).2 ha.1
      exact hm.named b ha (mem_pend.2 (.inl ⟨hb, hs⟩))

/-- What is visited from one candidate and then, on top of that, from others is visited from all of
    them. -/
theorem append (hm : h.Visits visited [v] more) (hl : h.Visits (more ++ visited) pending later) :
    h.Visits visited (v :: pending) (later ++ more) := by
  have hshift : later ++ (more ++ visited) = (later ++ more) ++ visited :=
    (List.append_assoc ..).symm
  refine ⟨hshift ▸ hl.nodup, ?reachable, ?named, ?closed⟩
  case reachable =>
    intro b hb
    rcases List.mem_append.1 hb with hb | hb
    · exact (hl.reachable b hb).mono fun _ hw => List.mem_cons_of_mem _ hw
    · refine (hm.reachable b hb).mono fun w hw => ?_
      rw [List.mem_singleton.1 hw]
      exact List.mem_cons_self ..
  case named =>
    intro b ha hb
    rw [← hshift]
    rcases List.mem_cons.1 hb with hb | hb
    · exact List.mem_append_right _ (hm.named b ha (List.mem_singleton.2 hb))
    · exact hl.named b ha hb
  case closed =>
    intro d hd b ha hb
    rw [← hshift]
    rcases List.mem_append.1 hd with hd | hd
    · exact hl.closed d hd b ha hb
    · exact List.mem_append_right _ (hm.closed d hd b ha hb)

theorem allocated (hm : h.Visits visited pending more)
    (hvis : ∀ b ∈ visited, h.Allocated b) : ∀ b ∈ more ++ visited, h.Allocated b := by
  intro b hb
  rcases List.mem_append.1 hb with hb | hb
  · exact (hm.reachable b hb).allocated
  · exact hvis b hb

/-- On top of a closed set the blocks visited make another one. -/
theorem closed_append (hm : h.Visits visited pending more) (hclosed : h.Closed visited visited) :
    h.Closed (more ++ visited) (more ++ visited) := by
  intro c hc b ha hb
  rcases List.mem_append.1 hc with hc | hc
  · exact hm.closed c hc b ha hb
  · exact List.mem_append_right _ (hclosed c hc b ha hb)

/-- On top of a closed set all is visited that can be reached and is not in it. -/
theorem mem_iff (hm : h.Visits visited pending more) (hclosed : h.Closed visited visited)
    {b : Nat} : b ∈ more ↔ h.Reachable pending b ∧ b ∉ visited := by
  constructor
  · intro hb
    exact ⟨hm.reachable b hb, fun hv => (List.nodup_append.1 hm.nodup).2.2 b hb b hv rfl⟩
  · rintro ⟨hr, hnew⟩
    have hmem := hr.mem_of_closed (hm.closed_append hclosed) hm.named
    exact (List.mem_append.1 hmem).resolve_right hnew

/-- On top of nothing all is visited that can be reached. -/
theorem mem_iff_reachable (hm : h.Visits [] pending more) {b : Nat} :
    b ∈ more ↔ h.Reachable pending b := by
  rw [hm.mem_iff fun c hc => absurd hc List.not_mem_nil]
  exact and_iff_left List.not_mem_nil

end Visits

/-- **Any order.** However pending candidates are taken, a trace that is over cleared the bits of
    what is to be visited from them on top of the blocks visited before, and counted it. -/
theorem visits_of_takes (hc : h.Contained) {pending : List VAddr}
    (hpend : ∀ v ∈ pending, L.Spans v ∨ ¬ v.Aligned)
    (hnodup : visited.Nodup) (hvis : ∀ b ∈ visited, h.Allocated b) {marked : Nat}
    {outcome : Except Fault Nat} {g : Heap L}
    (hrun : Relation.ReflTransGen Tracing.Takes (.going (h.clearBits visited) pending marked)
      (.ended outcome g)) :
    ∃ more, h.Visits visited pending more ∧
      outcome = .ok (marked + more.length) ∧ g = h.clearBits (more ++ visited) := by
  generalize hs : Tracing.going (h.clearBits visited) pending marked = s at hrun
  -- By induction on the run, from its end.
  induction hrun using Relation.ReflTransGen.head_induction_on
    generalizing visited pending marked with
  | refl => cases hs
  | head ht hlater ih =>
    subst hs
    cases ht with
    | last =>
      rcases Relation.ReflTransGen.cases_head hlater with heq | ⟨_, ht', _⟩
      · cases heq
        exact ⟨[], .nil hnodup, rfl, rfl⟩
      · cases ht'
    | @one _ _ rest v _ hp =>
      have hmem : ∀ w, w ∈ v :: rest ↔ w ∈ pending := fun w => hp.mem_iff.symm
      have hrest : ∀ w ∈ rest, L.Spans w ∨ ¬ w.Aligned :=
        fun w hw => hpend w ((hmem w).1 (List.mem_cons_of_mem _ hw))
      rcases look_clearBits hc hvis (hpend v ((hmem v).1 (List.mem_cons_self ..))) with
        ⟨hlook, hnone⟩ | ⟨c, rfl, hca, hfresh, hlook⟩
      · obtain ⟨more, hm, hend⟩ := ih hrest hnodup hvis (by rw [Tracing.take, hlook])
        exact ⟨more, (hm.skip hnone).congr hmem, hend⟩
      · have hpend' : ∀ w ∈ ((h.payloadOf c).filter (L.Spans ·)).reverse ++ rest,
            L.Spans w ∨ ¬ w.Aligned := by
          intro w hw
          rcases List.mem_append.1 hw with hw | hw
          · exact .inl (by simpa using (List.mem_filter.1 (List.mem_reverse.1 hw)).2)
          · exact hrest w hw
        obtain ⟨more, hm, hend⟩ := ih hpend' (List.nodup_cons.2 ⟨hfresh, hnodup⟩)
          (List.forall_mem_cons.2 ⟨hca, hvis⟩) (by rw [Tracing.take, hlook])
        rw [← Layout.pend_eq (h.payloadOf c).toArray rest] at hm
        refine ⟨more ++ [c], (hm.visit hca).congr hmem, ?_, ?_⟩
        · rw [hend.1, List.length_append, List.length_singleton, Nat.add_assoc, Nat.add_comm 1]
        · rw [hend.2, List.append_assoc]
          rfl

/-- **One trace.** On top of the blocks visited before, a trace clears the bits of what is to be
    visited from its candidates, and counts it. -/
theorem trace_visits (hc : h.Contained) {pending : List VAddr}
    (hpend : ∀ v ∈ pending, L.Spans v ∨ ¬ v.Aligned) (hnodup : visited.Nodup)
    (hvis : ∀ b ∈ visited, h.Allocated b) (marked : Nat) :
    ∃ more, h.Visits visited pending more ∧ (h.clearBits visited).trace pending marked =
      (.ok (marked + more.length), h.clearBits (more ++ visited)) := by
  obtain ⟨more, hm, hcount, hheap⟩ := visits_of_takes hc hpend hnodup hvis
    (Tracing.takes_result (.going (h.clearBits visited) pending marked))
  exact ⟨more, hm, Prod.ext hcount hheap⟩

/-! ### All traces -/

/-- **All traces.** The traces of several candidates, one after the other, visit what is to be
    visited from all of them. -/
theorem markAll_visits (hc : h.Contained) {candidates : List VAddr}
    (hcand : ∀ v ∈ candidates, L.Spans v ∨ ¬ v.Aligned) (hnodup : visited.Nodup)
    (hvis : ∀ b ∈ visited, h.Allocated b) :
    ∃ more traces, h.Visits visited candidates more ∧ (h.clearBits visited).markAll candidates =
        (traces, .ok (), h.clearBits (more ++ visited)) ∧
      traces.foldr (fun t n => t.marked + n) 0 = more.length := by
  induction candidates generalizing visited with
  | nil => exact ⟨[], [], .nil hnodup, rfl, rfl⟩
  | cons root roots ih =>
    obtain ⟨hroot, hroots⟩ := List.forall_mem_cons.1 hcand
    obtain ⟨first, hm, hrun⟩ :=
      trace_visits hc (List.forall_mem_singleton.2 hroot) hnodup hvis 0
    obtain ⟨later, traces, hl, hrun', hsum⟩ := ih hroots hm.nodup (hm.allocated hvis)
    have hmark : HeapM.mark root (h.clearBits visited) =
        (.ok (0 + first.length), h.clearBits (first ++ visited)) := hrun
    refine ⟨later ++ first, ⟨root, 0 + first.length⟩ :: traces, hm.append hl, ?_, ?_⟩
    · rw [markAll, hmark]
      simp only [hrun', List.append_assoc]
    · rw [List.foldr_cons, hsum, List.length_append, Nat.zero_add, Nat.add_comm]

/-- **Marking is exact.** From candidates in the heap or misaligned, marking meets no fault; it
    visits each reachable block once and no other. -/
theorem markAll_eq (hc : h.Contained) {candidates : List VAddr}
    (hcand : ∀ v ∈ candidates, L.Spans v ∨ ¬ v.Aligned) :
    ∃ visited traces, h.markAll candidates = (traces, .ok (), h.clearBits visited) ∧
      traces.foldr (fun t n => t.marked + n) 0 = visited.length ∧ visited.Nodup ∧
      ∀ b, b ∈ visited ↔ h.Reachable candidates b := by
  obtain ⟨visited, traces, hm, hrun, hsum⟩ :=
    markAll_visits hc hcand List.nodup_nil (fun b hb => absurd hb List.not_mem_nil)
  have hnodup := hm.nodup
  rw [List.append_nil] at hrun hnodup
  exact ⟨visited, traces, hrun, hsum, hnodup, fun b => hm.mem_iff_reachable⟩

/-! ### Candidates outside the heap -/

/-- A candidate that is the address of a whole word outside the heap interrupts marking. -/
theorem trace_outside {v : VAddr} {pending : List VAddr} (hal : v.Aligned) (hout : ¬ L.Spans v)
    (marked : Nat) : h.trace (v :: pending) marked =
      (.error (.bitOutside v.index L.heapStart L.heapEnd), h) := by
  have hin : ¬ L.InHeap v.index := by
    intro hin
    refine hout ?_
    rw [← VAddr.ofIndex_index hal]
    exact (Layout.spans_ofIndex hin.lt).2 hin
  rw [trace, if_pos hal, if_neg hin]

/-- Traces that completed are followed by those of the candidates behind. -/
theorem markAll_append {front : List VAddr} {traces : List RootTrace} {g : Heap L}
    (hfront : h.markAll front = (traces, .ok (), g)) (back : List VAddr) :
    h.markAll (front ++ back) = (traces ++ (g.markAll back).1, (g.markAll back).2) := by
  induction front generalizing h traces with
  | nil =>
    cases hfront
    rfl
  | cons root roots ih =>
    rw [List.cons_append, markAll]
    rw [markAll] at hfront
    cases hmark : HeapM.mark root h with
    | mk outcome m =>
      rw [hmark] at hfront
      cases outcome with
      | error fault => cases hfront
      | ok n =>
        obtain ⟨rfl, hrest⟩ := Prod.ext_iff.1 hfront
        have hroots : m.markAll roots = ((m.markAll roots).1, .ok (), g) := Prod.ext rfl hrest
        simp only [ih hroots, List.cons_append]

/-- If candidates are not all in the heap or misaligned, there is a first one that is neither. -/
theorem exists_first_outside {candidates : List VAddr}
    (hcand : ¬ ∀ v ∈ candidates, L.Spans v ∨ ¬ v.Aligned) :
    ∃ front v back, candidates = front ++ v :: back ∧
      (∀ w ∈ front, L.Spans w ∨ ¬ w.Aligned) ∧ v.Aligned ∧ ¬ L.Spans v := by
  induction candidates with
  | nil => exact absurd (fun v hv => absurd hv List.not_mem_nil) hcand
  | cons v vs ih =>
    by_cases hv : L.Spans v ∨ ¬ v.Aligned
    · obtain ⟨front, w, back, rfl, hfront, hw⟩ :=
        ih fun hvs => hcand (List.forall_mem_cons.2 ⟨hv, hvs⟩)
      exact ⟨v :: front, w, back, rfl, List.forall_mem_cons.2 ⟨hv, hfront⟩, hw⟩
    · rw [not_or, not_not] at hv
      exact ⟨[], v, vs, rfl, fun w hw => absurd hw List.not_mem_nil, hv.2, hv.1⟩

/-- **An interruption.** The first candidate outside the heap interrupts marking, which has dealt
    with those in front of it by then. -/
theorem markAll_outside (hc : h.Contained) {front : List VAddr}
    (hfront : ∀ w ∈ front, L.Spans w ∨ ¬ w.Aligned) {v : VAddr} (hal : v.Aligned)
    (hout : ¬ L.Spans v) (back : List VAddr) (hnodup : visited.Nodup)
    (hvis : ∀ b ∈ visited, h.Allocated b) :
    ∃ more traces, h.Visits visited front more ∧
      (h.clearBits visited).markAll (front ++ v :: back) = (traces,
        .error (.bitOutside v.index L.heapStart L.heapEnd), h.clearBits (more ++ visited)) := by
  obtain ⟨more, traces, hm, hrun, _⟩ := markAll_visits hc hfront hnodup hvis
  refine ⟨more, traces, hm, ?_⟩
  have hmark : HeapM.mark v (h.clearBits (more ++ visited)) = _ := trace_outside hal hout 0
  rw [markAll_append hrun, markAll, hmark, List.append_nil]

end Heap

end ArenaHeap
