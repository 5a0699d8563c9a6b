import ArenaHeap.Proofs.Ownership
import ArenaHeap.Proofs.Paused
import ArenaHeap.Proofs.Representation

namespace ArenaHeap

/-!
# Going on after an interrupted collection

A root outside the heap is a defect, and a collection that meets one stops. If the embedder goes on
all the same, the blocks visited by then have a clear bit, so later marking takes them for done:
it keeps them, but does not look at their payload again. A block that is linked into one of them in
the meantime, and nowhere else, is lost; `Heap.not_collection_keeps_all` is such a history.
What remains true is `Heap.Handed.collection_keeps`, and `Heap.Handed.collection_keeps_visited` of
the blocks visited themselves.
-/

variable {L : Layout}

/-! ### Histories with interruptions -/

namespace Step

/-- A step that stores in blocks in use only. Its roots may be any. -/
def Proper (owned : Nat → Prop) : Step → Prop
  | tryAllocate _ _ => True
  | allocate _ _ _ => True
  | collect _ => True
  | store block _ _ => owned block
  | storeReserved _ _ => True

/-- The blocks in use after a step, if some were in use before: a completed collection leaves
    those that it does not take back. -/
def leaves (h : Heap L) (s : Step) (owned : Nat → Prop) (b : Nat) : Prop :=
  (∃ g ∈ s.granted h, g.block = b) ∨
    (owned b ∧ ∀ roots ∈ s.collected h, (h.collect roots).2.Allocated b)

end Step

/-- A heap that is used on whatever collections are interrupted, with the blocks that were handed
    out and not taken back since. -/
inductive Heap.Handed : (h : Heap L) → (owned : Nat → Prop) → Prop
  | placed {a : Arena} {start : Pointer} {h : Heap L} :
      a.intoHeap start = .ok ⟨L, h⟩ → Heap.Handed h fun _ => False
  | step {h : Heap L} {owned : Nat → Prop} {s : Step} : Heap.Handed h owned → s.Proper owned →
      Heap.Handed (s.apply h) (s.leaves h owned)

namespace Heap

variable {h h' g m : Heap L} {blocks mid after visited seen : List Nat} {owned : Nat → Prop}
  {s : Step} {roots : Option Roots} {b : Nat}

theorem Granted.allocated_iff {tag : Tag} {size : Nat} {gr : Grant}
    (hg : Granted m mid tag size gr h' after) (ho : m.Ordered mid) :
    h'.Allocated b ↔ gr.block = b ∨ m.Allocated b := by
  have hin := ho.inHeap hg.mem_before
  constructor
  · rintro ⟨hb, hbit⟩
    rw [hg.bit_eq b hb.hasBit, Bool.or_eq_true, decide_eq_true_iff] at hbit
    exact hbit.imp id fun hset => ⟨hb, hset⟩
  · rintro (rfl | hb)
    · exact ⟨hin, by rw [hg.bit_eq _ hin.hasBit, decide_eq_true rfl, Bool.true_or]⟩
    · exact ⟨hb.1, by rw [hg.bit_eq b hb.1.hasBit, hb.2, Bool.or_true]⟩

theorem Kept.allocated_iff (hk : Kept m s h') : h'.Allocated b ↔ m.Allocated b :=
  and_congr_right fun hin => by rw [hk.bit_eq hin.hasBit]

/-- The collection that a step completes, if any, leaves the blocks in use that the heap in order
    then has. -/
theorem Resumed.allocated_iff (hr : Resumed h g blocks visited roots m mid seen)
    (hvis : ∀ b ∈ visited, g.Allocated b) (howned : ∀ b, owned b ↔ g.Allocated b) :
    m.Allocated b ↔ owned b ∧ ∀ r ∈ roots, (h.collect r).2.Allocated b := by
  cases hr with
  | unfinished _ _ => simp [howned]
  | completed hm hreduced =>
    constructor
    · intro hb
      refine ⟨?_, fun r hr => by cases hr; exact hb⟩
      have hkeep := (hreduced.bit_iff b hb.1.hasBit).1 hb.2
      exact (howned b).2 (hm.allocated hvis b hkeep.1)
    · exact fun ⟨_, hb⟩ => hb _ rfl

/-- A step of such a history. -/
theorem Paused.onward (hp : h.Paused g blocks visited) (howned : ∀ b, owned b ↔ g.Allocated b)
    (hs : s.Proper owned) : Onward h g blocks visited s (s.apply h) := by
  cases s with
  | tryAllocate tag size => exact hp.onward_tryAllocate tag size
  | allocate tag size roots => exact hp.onward_allocate tag size roots
  | collect roots => exact hp.onward_collect roots
  | store b k w =>
    obtain ⟨g', hkept, happly⟩ := hp.store_kept ((howned b).1 hs) k w
    exact .kept hp.unchanged rfl hkept happly
  | storeReserved k w =>
    obtain ⟨g', hkept, happly⟩ := hp.storeReserved_kept k w
    exact .kept hp.unchanged rfl hkept happly

/-- After a step the heap is a heap in order with some blocks visited again, and the ledger is
    right. -/
theorem Onward.paused (hn : Onward h g blocks visited s h') (hp : h.Paused g blocks visited)
    (howned : ∀ b, owned b ↔ g.Allocated b) :
    ∃ g' after seen, h'.Paused g' after seen ∧ ∀ b, s.leaves h owned b ↔ g'.Allocated b := by
  cases hn with
  | @granted m g' mid seen after _ _ gr hr hg hgranted heq =>
    have hpm := hr.paused hp
    refine ⟨g', after, seen, ⟨hgranted.ordered, hpm.nodup, fun b hb => ?_, heq⟩, fun b => ?_⟩
    · exact (hgranted.allocated_iff hpm.ordered).2 (.inr (hpm.allocated b hb))
    · rw [hgranted.allocated_iff hpm.ordered, hr.allocated_iff hp.allocated howned, Step.leaves, hg]
      simp
  | @kept m g' mid seen hr hg hkept heq =>
    have hpm := hr.paused hp
    refine ⟨g', mid, seen, ⟨hkept.ordered hpm.ordered, hpm.nodup, fun b hb => ?_, heq⟩,
      fun b => ?_⟩
    · exact hkept.allocated_iff.2 (hpm.allocated b hb)
    · rw [hkept.allocated_iff, hr.allocated_iff hp.allocated howned, Step.leaves, hg]
      simp

/-- **The invariant.** However often collections are interrupted, the heap is a heap in order in
    which some blocks in use were visited. -/
theorem Handed.paused (hh : h.Handed owned) :
    ∃ g blocks visited, h.Paused g blocks visited ∧ ∀ b, owned b ↔ g.Allocated b := by
  induction hh with
  | placed ha =>
    obtain ⟨words, rfl⟩ := eq_fresh_of_intoHeap ha
    refine ⟨_, _, _, (ordered_fresh L words).paused, fun b => ⟨False.elim, fun hb => ?_⟩⟩
    have hclear := bit_fresh L words hb.1.hasBit
    rw [hb.2] at hclear
    cases hclear
  | step _ hs ih =>
    obtain ⟨g, blocks, visited, hp, howned⟩ := ih
    exact (hp.onward howned hs).paused hp howned

/-! ### What a collection should keep -/

/-- The blocks in use that can be reached from some candidates through payload words, as far as
    a word of one block that refers to another counts. -/
inductive Leads (h : Heap L) (owned : Nat → Prop) (counts : Nat → Nat → Prop)
    (candidates : List VAddr) : (block : Nat) → Prop
  | candidate {block : Nat} : owned block → VAddr.ofIndex block ∈ candidates →
      Leads h owned counts candidates block
  | word {holder block : Nat} : Leads h owned counts candidates holder → owned block →
      VAddr.ofIndex block ∈ h.payloadOf holder → counts holder block →
      Leads h owned counts candidates block

/-- A word of one block that refers to another, unless an interrupted marking visited the first
    and not the second: the bit of a block in use is clear once it was visited. -/
def Counts (h : Heap L) (holder block : Nat) : Prop := h.bit holder = true ∨ h.bit block = false

/-- A block is still allocated, with the same header and payload. -/
structure Unharmed (h h' : Heap L) (b : Nat) : Prop where
  allocated : h'.Allocated b
  tagOf_eq : h'.tagOf b = h.tagOf b
  sizeOf_eq : h'.sizeOf b = h.sizeOf b
  payloadOf_eq : h'.payloadOf b = h.payloadOf b

/-- The interruption itself does no harm: in a heap in order all words count afterwards, so a block
    can be lost only if it is handed out or linked later. -/
theorem Ordered.counts_of_interrupted (ho : h.Ordered blocks) {roots : Roots}
    (hs : (Step.collect roots).collected h = none) {c : Nat} (hc : h.Allocated c)
    (hb : h.Allocated b) (hv : VAddr.ofIndex b ∈ h.payloadOf c) :
    (h.collect roots).2.Counts c b := by
  rcases ho.paused.collect_cases roots with ⟨traces, fault, front, more, hrun, hm⟩ |
    ⟨traces, r, m, mid, more, hrun, _⟩
  · have hbit : ∀ i, L.InHeap i → (h.collect roots).2.bit i = (h.bit i && !decide (i ∈ more)) := by
      intro i hi
      rw [hrun, List.append_nil, bit_clearBits (fun d hd => (hm.reachable d hd).allocated.1) hi.1]
    by_cases hmem : c ∈ more
    · have hbmem := hm.closed c hmem b hb hv
      rw [List.append_nil] at hbmem
      exact .inr (by simp [hbit b hb.1, hbmem])
    · exact .inl (by simp [hbit c hc.1, hc.2, hmem])
  · rw [Step.collected, hrun] at hs
    cases hs

/-! ### A block that is lost -/

/-- A heap with one block, at index 3. -/
def single : Heap Layout.small := (Step.tryAllocate 7 2).apply small

/-- Roots of which the second one lies outside the heap. -/
def straying : Roots := ⟨.ofIndex 3, .ofIndex 1, .base⟩

/-- The block is visited before the second root interrupts the collection. -/
theorem collect_single : single.collect straying =
    (⟨[⟨.ofIndex 3, 1⟩], .error (.bitOutside 1 2 16)⟩, single.clearBit 3) := by
  have hpay : (single.clearBit 3).payloadAt (VAddr.ofIndex 3).index = .ok #[0, 0] := by
    decide +kernel
  have hvisit : single.trace [.ofIndex 3] 0 = (single.clearBit 3).trace [] 1 :=
    trace_visit (v := .ofIndex 3) (by decide) (by decide) (by decide +kernel) hpay
  have hfirst : HeapM.mark (.ofIndex 3) single = (.ok 1, single.clearBit 3) :=
    hvisit.trans (by rw [trace])
  have hsecond : HeapM.mark (.ofIndex 1) (single.clearBit 3) =
      (.error (.bitOutside 1 2 16), single.clearBit 3) :=
    trace_outside (by decide) (by decide) 0
  have hroots : straying.candidates = [.ofIndex 3, .ofIndex 1] := by decide
  rw [Heap.collect, hroots, markAll, hfirst]
  simp only [markAll, hsecond]

/-- The heap gone on with: another block is handed out, and the first one refers to it. -/
def severed : Heap Layout.small :=
  (Step.store 3 0 (VAddr.ofIndex 6)).apply ((Step.tryAllocate 9 2).apply (single.clearBit 3))

/-- A block in use stays in use in a step that completes no collection. -/
theorem leaves_of_owned (hb : owned b) (hs : s.collected h = none) : s.leaves h owned b := by
  refine .inr ⟨hb, ?_⟩
  rw [hs]
  exact fun _ hr => nomatch hr

/-- Both blocks are in use. -/
theorem handed_severed : ∃ owned, severed.Handed owned ∧ owned 3 ∧ owned 6 := by
  have hsmall : Heap.small.Handed fun _ => False :=
    .placed Arena.intoHeap_small
  obtain ⟨first, hsingle, hone⟩ : ∃ owned, single.Handed owned ∧ owned 3 :=
    ⟨_, hsmall.step (s := .tryAllocate 7 2) trivial, .inl ⟨⟨7, 3, 2⟩, by decide +kernel, rfl⟩⟩
  obtain ⟨second, hpaused, htwo⟩ : ∃ owned, (single.clearBit 3).Handed owned ∧ owned 3 := by
    have hnone : (Step.collect straying).collected single = none := by
      rw [Step.collected, collect_single]
    have hstep := hsingle.step (s := .collect straying) trivial
    rw [Step.apply, collect_single] at hstep
    exact ⟨_, hstep, leaves_of_owned hone hnone⟩
  have hboth := hpaused.step (s := .tryAllocate 9 2) trivial
  have hthree : (Step.tryAllocate 9 2).leaves (single.clearBit 3) second 3 :=
    leaves_of_owned htwo rfl
  have hsix : (Step.tryAllocate 9 2).leaves (single.clearBit 3) second 6 :=
    .inl ⟨⟨9, 6, 2⟩, by decide +kernel, rfl⟩
  exact ⟨_, hboth.step (s := .store 3 0 (VAddr.ofIndex 6)) hthree, leaves_of_owned hthree rfl,
    leaves_of_owned hsix rfl⟩

/-- **A block may be lost.** After an interrupted collection it is not true that the next one keeps
    all that its roots lead to. -/
theorem not_collection_keeps_all :
    ¬ ∀ (L : Layout) (h : Heap L) (owned : Nat → Prop) (s : Step) (roots : Roots) (b : Nat),
      h.Handed owned → s.Proper owned → s.collected h = some roots → h.tagOf b ≠ Tag.free →
      h.Leads owned (fun _ _ => True) roots.candidates b → Unharmed h (s.apply h) b := by
  intro hall
  obtain ⟨owned, hhanded, hthree, hsix⟩ := handed_severed
  have hleads : severed.Leads owned (fun _ _ => True)
      (Roots.candidates ⟨.ofIndex 3, .base, .base⟩) 6 :=
    .word (.candidate hthree (by decide)) hsix (by decide +kernel) trivial
  -- The first block's bit is clear, so marking looks no further.
  have hmark : HeapM.mark (.ofIndex 3) severed = (.ok 0, severed) := by
    show severed.trace [.ofIndex 3] 0 = _
    rw [trace, if_pos (by decide), if_pos (by decide), if_neg (by decide +kernel), trace]
  have htiles : severed.TilesTo Layout.small.heapStart [3, 6, 9] Layout.small.heapEnd :=
    ⟨rfl, by decide +kernel, by decide +kernel, by decide +kernel, by decide +kernel,
      by decide +kernel, show 9 + severed.sizeOf 9 = 16 by decide +kernel⟩
  obtain ⟨m, after, r, hsweep, hr⟩ := HeapM.sweep_apply htiles
  have hrun : severed.collect ⟨.ofIndex 3, .base, .base⟩ =
      (⟨[⟨.ofIndex 3, 0⟩], .ok r⟩, m.countCollection 0 r.reclaimed) := by
    have hroots : Roots.candidates ⟨.ofIndex 3, .base, .base⟩ = [.ofIndex 3] := by decide
    rw [Heap.collect, hroots, markAll, hmark]
    simp only [markAll, hsweep]
    rfl
  have hcollected : (Step.collect ⟨.ofIndex 3, .base, .base⟩).collected severed =
      some ⟨.ofIndex 3, .base, .base⟩ := by
    rw [Step.collected, hrun]
  have hkept := hall _ severed owned (.collect ⟨.ofIndex 3, .base, .base⟩) _ 6 hhanded trivial
    hcollected (by decide +kernel) hleads
  have hset : m.bit 6 = true := by
    have hbit := hkept.allocated.2
    rw [Step.apply, hrun] at hbit
    exact hbit
  -- But the second block's bit is set, so the sweep does not spare it.
  rw [hr.gathered.bit 6 (Layout.InHeap.hasBit (by decide)), if_pos (by decide),
    decide_eq_true_iff] at hset
  exact absurd hset.1 (by decide +kernel)

/-! ### What a completed collection keeps -/

theorem Leads.inUse {counts : Nat → Nat → Prop} {candidates : List VAddr}
    (hl : h.Leads owned counts candidates b) : owned b := by
  cases hl <;> assumption

/-- Marking on visits all that the candidates lead to. -/
theorem Leads.mem_visits {candidates : List VAddr} {more : List Nat}
    (hl : h.Leads owned h.Counts candidates b) (hp : h.Paused g blocks visited)
    (howned : ∀ b, owned b ↔ g.Allocated b) (hm : g.Visits visited candidates more) :
    b ∈ more ++ visited := by
  induction hl with
  | candidate hb hv => exact hm.named _ ((howned _).1 hb) hv
  | @word c b hc hb hv hcounts ih =>
    have hcg := (howned c).1 hc.inUse
    have hbg := (howned b).1 hb
    have hclow := (hp.ordered.bounds (hp.ordered.allocated_iff.1 hcg).1).1
    rw [(hp.views_eq hclow).2.2] at hv
    rcases List.mem_append.1 ih with hmore | hvisited
    · exact hm.closed c hmore b hbg hv
    · -- What a block visited before refers to is not looked at, so it has to be visited, too.
      have hclear : h.bit c = false := by
        rw [hp.bit_eq (Nat.le_of_lt hclow)]
        simp [hvisited]
      have hbit : h.bit b = false := hcounts.resolve_left (by simp [hclear])
      rw [hp.bit_eq hbg.1.1, hbg.2] at hbit
      exact List.mem_append_right _ (by simpa using hbit)

/-- A step that completes a collection stores nothing. -/
theorem stored_of_collected {r : Roots} (hs : s.collected h = some r) (k : Nat) (w : Word) :
    s.stored b k w = w := by
  cases s with
  | store c l v => cases hs
  | _ => rfl

/-- A block whose payload did not change since it was as in `h`. -/
theorem Owned.unharmed (hb : h'.Owned b (h.tagOf b) (h.sizeOf b))
    (hpay : m.payloadOf b = h.payloadOf b) (hsize : m.sizeOf b = h.sizeOf b)
    (hwords : ∀ k < h.sizeOf b, h'.word (b + k) = m.word (b + k)) : Unharmed h h' b := by
  refine ⟨hb.allocated, hb.tagOf_eq, hb.sizeOf_eq, ?_⟩
  rw [← hpay]
  exact payloadOf_congr (hb.sizeOf_eq.trans hsize.symm) fun k hk => hwords k (hsize ▸ hk)

/-- What a step does after the collection that it completes harms no block that was visited when
    this one swept. -/
theorem Onward.unharmed (hn : Onward h g blocks visited s h') (hp : h.Paused g blocks visited)
    (hbg : g.Allocated b) {r : Roots} (hs : s.collected h = some r) (htag : h.tagOf b ≠ Tag.free)
    (hvis : ∀ more, g.Visits visited r.candidates more → b ∈ more ++ visited) :
    Unharmed h h' b := by
  have hlow := (hp.ordered.bounds (hp.ordered.allocated_iff.1 hbg).1).1
  obtain ⟨hsizeg, htagg, hpayg⟩ := hp.views_eq hlow
  have hsettled : ∀ {m mid seen}, Resumed h g blocks visited (s.collected h) m mid seen →
      seen = [] ∧ m.Ordered mid ∧ m.Owned b (h.tagOf b) (h.sizeOf b) ∧
        m.payloadOf b = h.payloadOf b := by
    intro m mid seen hr
    rw [hs] at hr
    cases hr with
    | completed hm hreduced =>
      -- By now its bit is clear, so the sweep spares it.
      have hkeep := And.intro (hvis _ hm) (htagg ▸ htag)
      obtain ⟨hsize, htag', hpay⟩ := hreduced.views_eq hkeep (by omega)
      have hbit := (hreduced.bit_iff b hbg.1.hasBit).2 hkeep
      exact ⟨rfl, hreduced.ordered, ⟨⟨hbg.1, hbit⟩, htag'.trans htagg.symm,
        hsize.trans hsizeg.symm⟩, hpay.trans hpayg.symm⟩
  cases hn with
  | @granted m g' _ _ _ _ _ _ hr _ hgranted heq =>
    obtain ⟨rfl, hom, hb, hpay⟩ := hsettled hr
    obtain ⟨hb', hwords, _⟩ := hb.granted hom hgranted
    rw [show h' = g' from heq]
    exact hb'.unharmed hpay hb.sizeOf_eq hwords
  | @kept m g' _ _ hr _ hkept heq =>
    obtain ⟨rfl, hom, hb, hpay⟩ := hsettled hr
    obtain ⟨hb', hwords⟩ := hb.kept hom hkept
    rw [show h' = g' from heq]
    refine hb'.unharmed hpay hb.sizeOf_eq fun k hk => ?_
    rw [hwords k hk, stored_of_collected hs]

/-- A block in use that an interrupted marking visited is kept in any case, also if the roots lead
    to it through words that do not count or do not lead to it at all: its bit is clear, so the next
    sweep spares it. -/
theorem Handed.collection_keeps_visited (hh : h.Handed owned) (hs : s.Proper owned) {r : Roots}
    (hc : s.collected h = some r) (htag : h.tagOf b ≠ Tag.free) (hb : owned b)
    (hbit : h.bit b = false) : Unharmed h (s.apply h) b := by
  obtain ⟨g, blocks, visited, hp, howned⟩ := hh.paused
  have hbg := (howned b).1 hb
  refine (hp.onward howned hs).unharmed hp hbg hc htag fun more _ => List.mem_append_right more ?_
  rw [hp.bit_eq hbg.1.1, hbg.2] at hbit
  simpa using hbit

/-- **Going on.** However often collections were interrupted, one that completes, by itself or for
    a request, leaves every block in use unharmed that is not tagged as free and that its roots
    lead to, through words that count. -/
theorem Handed.collection_keeps (hh : h.Handed owned) (hs : s.Proper owned) {r : Roots}
    (hc : s.collected h = some r) (htag : h.tagOf b ≠ Tag.free)
    (hl : h.Leads owned h.Counts r.candidates b) : Unharmed h (s.apply h) b := by
  obtain ⟨g, blocks, visited, hp, howned⟩ := hh.paused
  exact (hp.onward howned hs).unharmed hp ((howned b).1 hl.inUse) hc htag
    fun _ hm => hl.mem_visits hp howned hm

/-- The law where a root names the second block, too: the next collection leaves it unharmed. -/
theorem collection_keeps_severed : ∃ owned,
    let roots : Roots := ⟨.ofIndex 3, .ofIndex 6, .base⟩
    severed.Handed owned ∧ (Step.collect roots).Proper owned ∧
      (Step.collect roots).collected severed = some roots ∧ severed.tagOf 6 ≠ Tag.free ∧
      severed.Leads owned severed.Counts roots.candidates 6 ∧
      Unharmed severed (severed.collect roots).2 6 := by
  obtain ⟨owned, hhanded, _, hsix⟩ := handed_severed
  obtain ⟨g, blocks, visited, hp, _⟩ := hhanded.paused
  have hroots : Roots.Regular ⟨.ofIndex 3, .ofIndex 6, .base⟩ Layout.small := by decide +kernel
  have hcollected := hp.collect_completes hroots
  have htag : severed.tagOf 6 ≠ Tag.free := by decide +kernel
  have hleads : severed.Leads owned severed.Counts
      (Roots.candidates ⟨.ofIndex 3, .ofIndex 6, .base⟩) 6 := .candidate hsix (by decide)
  exact ⟨owned, hhanded, trivial, hcollected, htag, hleads,
    hhanded.collection_keeps (s := .collect _) trivial hcollected htag hleads⟩

end Heap

end ArenaHeap
