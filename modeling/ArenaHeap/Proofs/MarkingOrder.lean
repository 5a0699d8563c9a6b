import ArenaHeap.Proofs.Equality
import ArenaHeap.Proofs.RegularUse

namespace ArenaHeap

/-!
# The order of marking does not matter

A trace takes the candidate that was put on the work-list last, so it walks through the blocks in
another order than a recursion over payload words does, and meets many candidates a second time
when they have nothing to add any more. The two never agree step by step. But each visits what
`Heap.Visits` says, on top of blocks that are closed because they are all that earlier roots reach,
and on top of a closed set there is only one set of blocks to visit.

* `Heap.descend`, `Heap.descend_visits` — marking by recursion.
* `Heap.AnyOrder`, `Heap.anyOrder` — on top of a closed set it comes to the same as a trace, and so
  does marking in any other order.
* `Heap.Ordered.sameCollection` — a collection depends on its candidates as a set.
* `Heap.Reached.marking_order_free` — so in regular use no order matters.
-/

variable {L : Layout}

namespace Heap

/-! ### Marking by recursion -/

/-- Marking by recursion, with the reason why it ends: no bit is set on the way. -/
def descendBounded (h : Heap L) (candidates : List VAddr) :
    { r : Except Fault Nat × Heap L // r.2.bitCount ≤ h.bitCount } :=
  match candidates with
  | [] => ⟨(.ok 0, h), Nat.le_refl _⟩
  | v :: vs =>
    have hle := h.bitCount_look_le v
    match hlook : (h.look v).1 with
    | .error fault => ⟨(.error fault, (h.look v).2), hle⟩
    | .ok none =>
      let beside := (h.look v).2.descendBounded vs
      ⟨beside.val, beside.property.trans hle⟩
    | .ok (some words) =>
      have hlt := bitCount_look_lt hlook
      let below := (h.look v).2.descendBounded words
      match below.val.1 with
      | .error fault => ⟨(.error fault, below.val.2), below.property.trans hle⟩
      | .ok n =>
        have hlt' := Nat.lt_of_le_of_lt below.property hlt
        let beside := below.val.2.descendBounded vs
        ⟨(beside.val.1.map (1 + n + ·), beside.val.2), beside.property.trans hlt'.le⟩
termination_by (h.bitCount, candidates.length)
decreasing_by
  · exact Tracing.lex_of_le hle (Nat.lt_succ_self _)
  · exact .left _ _ hlt
  · exact .left _ _ hlt'

/-- Visits one candidate after the other, each with all that its payload words lead to before the
    next one, and counts the blocks visited. -/
def descend (h : Heap L) (candidates : List VAddr) : Except Fault Nat × Heap L :=
  (h.descendBounded candidates).val

theorem descend_nil (h : Heap L) : h.descend [] = (.ok 0, h) := by
  rw [descend, descendBounded]

/-- The recursion: a candidate that names no block with its bit set is passed over; any other is
    visited, with its payload words from left to right, and then the candidates beside it. -/
theorem descend_cons (h : Heap L) (v : VAddr) (vs : List VAddr) :
    h.descend (v :: vs) =
      match h.look v with
      | (.ok none, g) => g.descend vs
      | (.ok (some words), g) =>
        match g.descend words with
        | (.ok below, g) => ((g.descend vs).1.map (1 + below + ·), (g.descend vs).2)
        | (.error fault, g) => (.error fault, g)
      | (.error fault, g) => (.error fault, g) := by
  rw [descend, descendBounded]
  split
  case h_1 hlook => conv_rhs => rw [show h.look v = (_, (h.look v).2) from Prod.ext hlook rfl]
  case h_2 hlook =>
    conv_rhs => rw [show h.look v = (_, (h.look v).2) from Prod.ext hlook rfl]
    rfl
  case h_3 words hlook =>
    conv_rhs => rw [show h.look v = (_, (h.look v).2) from Prod.ext hlook rfl]
    dsimp only [descend]
    split
    all_goals
      rename_i hbelow
      conv_rhs =>
        rw [show ((h.look v).2.descendBounded words).val = (_, _) from Prod.ext hbelow rfl]

/-- The recursion sets no bit. -/
theorem bitCount_descend_le (h : Heap L) (candidates : List VAddr) :
    (h.descend candidates).2.bitCount ≤ h.bitCount :=
  (h.descendBounded candidates).property

/-- **Recursion.** On top of the blocks visited before, the recursion clears the bits of what is to
    be visited from its candidates, and counts it. -/
theorem descend_visits {h : Heap L} (hc : h.Contained) {visited : List Nat}
    {candidates : List VAddr} (hcand : ∀ v ∈ candidates, L.Spans v ∨ ¬ v.Aligned)
    (hnodup : visited.Nodup) (hvis : ∀ b ∈ visited, h.Allocated b) :
    ∃ more, h.Visits visited candidates more ∧ (h.clearBits visited).descend candidates =
      (.ok more.length, h.clearBits (more ++ visited)) := by
  -- By recursion as `descendBounded` does it: on the set bits, then on the candidates left.
  match candidates with
  | [] => exact ⟨[], .nil hnodup, descend_nil _⟩
  | v :: vs =>
    obtain ⟨hv, hvs⟩ := List.forall_mem_cons.1 hcand
    rw [descend_cons]
    rcases look_clearBits hc hvis hv with ⟨hlook, hnone⟩ | ⟨c, rfl, hca, hfresh, hlook⟩
    · obtain ⟨more, hm, hrun⟩ := descend_visits hc hvs hnodup hvis
      refine ⟨more, hm.skip hnone, ?_⟩
      rw [hlook]
      exact hrun
    · have hwords : ∀ w ∈ (h.payloadOf c).filter (L.Spans ·), L.Spans w ∨ ¬ w.Aligned :=
        fun w hw => .inl (by simpa using (List.mem_filter.1 hw).2)
      have hvis' := List.forall_mem_cons.2 ⟨hca, hvis⟩
      have hlt : (h.clearBits (c :: visited)).bitCount < (h.clearBits visited).bitCount := by
        simpa only [hlook] using bitCount_look_lt (congrArg Prod.fst hlook)
      obtain ⟨below, hb, hrun⟩ :=
        descend_visits hc hwords (List.nodup_cons.2 ⟨hfresh, hnodup⟩) hvis'
      have hle : (h.clearBits (below ++ c :: visited)).bitCount ≤
          (h.clearBits (c :: visited)).bitCount := by
        simpa only [hrun] using
          (h.clearBits (c :: visited)).bitCount_descend_le ((h.payloadOf c).filter (L.Spans ·))
      obtain ⟨beside, hs, hrun'⟩ := descend_visits hc hvs hb.nodup (hb.allocated hvis')
      have hone : h.Visits visited [VAddr.ofIndex c] (below ++ [c]) :=
        (hb.congr fun w => by simp [Layout.pend_eq]).visit hca
      refine ⟨beside ++ (below ++ [c]), hone.append (by simpa using hs), ?_⟩
      rw [hlook]
      simp only [hrun, hrun']
      simp [Except.map, Nat.add_comm, Nat.add_left_comm]
termination_by ((h.clearBits visited).bitCount, candidates.length)
decreasing_by
  · exact .right _ (Nat.lt_succ_self _)
  · exact .left _ _ hlt
  · exact .left _ _ (Nat.lt_of_le_of_lt hle hlt)

/-! ### One trace of several -/

section Traces

variable {h : Heap L} {visited : List Nat} {pending : List VAddr} {more others : List Nat}

/-- On top of a closed set there is one way only to visit, up to order. -/
theorem Visits.perm (hm : h.Visits visited pending more) (ho : h.Visits visited pending others)
    (hclosed : h.Closed visited visited) : more.Perm others :=
  (List.perm_ext_iff_of_nodup (List.nodup_append.1 hm.nodup).1 (List.nodup_append.1 ho.nodup).1).2
    fun _ => (hm.mem_iff hclosed).trans (ho.mem_iff hclosed).symm

/-- On top of a closed set it does not matter how the blocks were visited. -/
theorem Visits.clearBits_eq (hm : h.Visits visited pending more)
    (ho : h.Visits visited pending others) (hclosed : h.Closed visited visited)
    (hvis : ∀ b ∈ visited, h.Allocated b) :
    h.clearBits (others ++ visited) = h.clearBits (more ++ visited) :=
  clearBits_congr (fun b hb => (ho.allocated hvis b hb).1) fun b => by
    rw [List.mem_append, List.mem_append, (ho.perm hm hclosed).mem_iff]

/-- Marking from one candidate meets no fault, and comes to the same by recursion and in any other
    order. -/
structure AnyOrder (g : Heap L) (root : VAddr) : Prop where
  completes : ∃ n, (HeapM.mark root g).1 = .ok n
  descend_eq : g.descend [root] = HeapM.mark root g
  takes_eq : ∀ outcome g',
    Relation.ReflTransGen Tracing.Takes (.going g [root] 0) (.ended outcome g') →
      (outcome, g') = HeapM.mark root g
  /-- No order goes on for ever. -/
  ends : Acc (fun t s => s.Takes t) (Tracing.going g [root] 0)

theorem anyOrder (hc : h.Contained) {root : VAddr} (hroot : L.Spans root ∨ ¬ root.Aligned)
    (hnodup : visited.Nodup) (hvis : ∀ b ∈ visited, h.Allocated b)
    (hclosed : h.Closed visited visited) : (h.clearBits visited).AnyOrder root := by
  have hcand : ∀ v ∈ [root], L.Spans v ∨ ¬ v.Aligned := List.forall_mem_singleton.2 hroot
  obtain ⟨more, hm, hmark⟩ := trace_visits hc hcand hnodup hvis 0
  rw [Nat.zero_add] at hmark
  refine ⟨⟨more.length, ?_⟩, ?_, fun outcome g' hrun => ?_, Tracing.takes_wellFounded.apply _⟩
  · rw [HeapM.mark, hmark]
  · obtain ⟨others, ho, hrun⟩ := descend_visits hc hcand hnodup hvis
    rw [hrun, HeapM.mark, hmark, (ho.perm hm hclosed).length_eq, hm.clearBits_eq ho hclosed hvis]
  · obtain ⟨others, ho, rfl, rfl⟩ := visits_of_takes hc hcand hnodup hvis hrun
    rw [HeapM.mark, hmark, Nat.zero_add, (ho.perm hm hclosed).length_eq,
      hm.clearBits_eq ho hclosed hvis]

end Traces

end Heap

/-! ### The order of the roots -/

namespace Roots

variable {r : Roots}

theorem get?_clear (slot other : RootSlot) :
    (r.clear slot).get? other = if other = slot then none else r.get? other := by
  cases slot <;> cases other <;> rfl

/-- The candidates are the same if the roots are, in whichever slots. -/
theorem mem_candidates_of_perm {r' : Roots} (hp : r'.toList.Perm r.toList) (v : VAddr) :
    v ∈ r'.candidates ↔ v ∈ r.candidates :=
  (List.Perm.map _ (hp.filter _)).mem_iff

/-- Unsetting a root that another slot holds too removes no candidate. -/
theorem mem_candidates_clear {s t : RootSlot} (hst : s ≠ t) (hsame : r.get? s = r.get? t)
    (v : VAddr) : v ∈ (r.clear s).candidates ↔ v ∈ r.candidates := by
  simp only [mem_candidates, get?_clear]
  constructor
  · rintro ⟨slot, p, hslot, hv⟩
    split at hslot
    · cases hslot
    · exact ⟨slot, p, hslot, hv⟩
  · rintro ⟨slot, p, hslot, hv⟩
    by_cases hs : slot = s
    · subst hs
      exact ⟨t, p, by rw [if_neg (Ne.symm hst), ← hsame, hslot], hv⟩
    · exact ⟨slot, p, by rw [if_neg hs, hslot], hv⟩

end Roots

namespace Heap

/-- Collections from some roots and from others come to the same. Only which root a block is
    counted for may differ. -/
structure SameCollection (h : Heap L) (roots others : Roots) : Prop where
  heap_eq : (h.collect others).2 = (h.collect roots).2
  outcome_eq : (h.collect others).1.outcome = (h.collect roots).1.outcome
  marked_eq : (h.collect others).1.marked = (h.collect roots).1.marked

/-- A collection depends on its candidates as a set only. -/
theorem Ordered.sameCollection {h : Heap L} {blocks : List Nat} (ho : h.Ordered blocks)
    {roots others : Roots} (hroots : roots.Regular L)
    (hmem : ∀ v, v ∈ others.candidates ↔ v ∈ roots.candidates) :
    h.SameCollection roots others := by
  have hothers : others.Regular L := fun v hv => hroots v ((hmem v).1 hv)
  obtain ⟨visited, traces, hmark, hsum, hnodup, hvis⟩ := markAll_eq ho.contained hroots
  obtain ⟨seen, traces', hmark', hsum', hnodup', hseen⟩ := markAll_eq ho.contained hothers
  have hsame : ∀ b, b ∈ seen ↔ b ∈ visited := by
    intro b
    rw [hvis, hseen]
    exact ⟨.mono fun v hv => (hmem v).1 hv, .mono fun v hv => (hmem v).2 hv⟩
  have hlength : seen.length = visited.length :=
    ((List.perm_ext_iff_of_nodup hnodup' hnodup).2 hsame).length_eq
  have hin : ∀ c ∈ visited, L.InHeap c := fun c hc => ((hvis c).1 hc).allocated.1
  rw [clearBits_congr (fun b hb => hin b ((hsame b).1 hb)) hsame] at hmark'
  obtain ⟨g, after, r, hsweep, -⟩ := HeapM.sweep_apply (ho.tiles_clearBits hin)
  have hrun := collect_of_marked hmark hsweep
  have hrun' := collect_of_marked hmark' hsweep
  refine ⟨?_, ?_, ?_⟩
  · rw [hrun, hrun', hsum, hsum', hlength]
  · rw [hrun, hrun']
  · rw [hrun, hrun', Collection.marked, Collection.marked, hsum, hsum', hlength]

/-- No order matters in a collection: neither that in which candidates are taken, nor that of the
    roots. -/
structure OrderFree (h : Heap L) (roots : Roots) : Prop where
  traces : ∀ front root back, roots.candidates = front ++ root :: back →
    (h.markAll front).2.2.AnyOrder root
  completes : ∃ r, (h.collect roots).1.outcome = .ok r
  permuted : ∀ others : Roots, others.toList.Perm roots.toList → h.SameCollection roots others
  /-- A root that is there twice may as well be unset. -/
  cleared : ∀ s t, s ≠ t → roots.get? s = roots.get? t → h.SameCollection roots (roots.clear s)

/-- **The order of marking does not matter.** In regular use, each trace of a collection visits the
    same blocks and counts them alike by recursion and in any order of the pending candidates; and
    roots may be permuted, or left out if they are there twice. -/
theorem Reached.marking_order_free {h : Heap L} (hreach : h.Reached) {roots : Roots}
    (hroots : roots.Regular L) : h.OrderFree roots := by
  obtain ⟨blocks, ho⟩ := hreach.ordered
  refine ⟨?traces, ?completes, ?permuted, ?cleared⟩
  case traces =>
    intro front root back hsplit
    have hfront : ∀ v ∈ front, L.Spans v ∨ ¬ v.Aligned :=
      fun v hv => hroots v (hsplit ▸ List.mem_append_left _ hv)
    have hroot : L.Spans root ∨ ¬ root.Aligned :=
      hroots root (hsplit ▸ List.mem_append_right _ (List.mem_cons_self ..))
    have hnone : ∀ b ∈ ([] : List Nat), h.Allocated b := fun b hb => absurd hb List.not_mem_nil
    obtain ⟨visited, traces, hm, hrun, -⟩ :=
      markAll_visits ho.contained hfront List.nodup_nil hnone
    rw [show h.markAll front = _ from hrun]
    exact anyOrder ho.contained hroot hm.nodup (hm.allocated hnone)
      (hm.closed_append fun c hc => absurd hc List.not_mem_nil)
  case completes =>
    obtain ⟨traces, r, g, after, visited, hrun, -⟩ := ho.collect_rebuilt hroots
    exact ⟨r, by rw [hrun]⟩
  case permuted =>
    exact fun others hp => ho.sameCollection hroots (Roots.mem_candidates_of_perm hp)
  case cleared =>
    exact fun s t hst hsame => ho.sameCollection hroots (Roots.mem_candidates_clear hst hsame)

/-- A heap with two blocks that refer to each other, one of them twice. -/
def knotted : Heap Layout.small :=
  (Step.store 6 2 (VAddr.ofIndex 3)).apply ((Step.store 6 0 (VAddr.ofIndex 3)).apply
    ((Step.store 3 1 (VAddr.ofIndex 6)).apply
      ((Step.tryAllocate 9 3).apply ((Step.tryAllocate 7 2).apply small))))

/-- Three roots at those two blocks. -/
theorem marking_order_free_knotted :
    let roots : Roots := ⟨.ofIndex 3, .ofIndex 6, .ofIndex 3⟩
    knotted.Reached ∧ roots.Regular Layout.small ∧
      knotted.payloadOf 3 = [0, VAddr.ofIndex 6] ∧
      knotted.payloadOf 6 = [VAddr.ofIndex 3, 0, VAddr.ofIndex 3] ∧ knotted.OrderFree roots := by
  intro roots
  have hreach : knotted.Reached := by
    refine .step (.step (.step ((reached_small.step ?_).step ?_) ?_) ?_) ?_
    · trivial
    · trivial
    · show Allocated _ 3
      decide +kernel
    · show Allocated _ 6
      decide +kernel
    · show Allocated _ 6
      decide +kernel
  have hroots : roots.Regular Layout.small := by decide +kernel
  exact ⟨hreach, hroots, by decide +kernel, by decide +kernel,
    hreach.marking_order_free hroots⟩

end Heap

end ArenaHeap
