import ArenaHeap.Proofs.Alike

namespace ArenaHeap

/-!
# Stale memory does not show

An arena may hold anything when a heap is placed in it, and what a block held is still there when
its words are handed out again. None of this can be found out: two heaps placed in arenas of the
same size tell their callers the same in every run of the same operations, as long as the payload of
each block is written before it is used.

* `Act`, `Heap.script` — an operation and the filling of the block that it hands out, and the steps
  that some of them come to.
* `Heap.Alike.step`, `Heap.Served.fill` — one step of two heaps that are alike.
* `Heap.Alike.script` — so a run tells the same and leaves heaps that are alike.
* `Heap.noninterference` — the law, from two arenas on.
-/

variable {L : Layout}

/-! ### Operations -/

namespace Step

/-- What a step tells its caller. -/
inductive Answer where
  | request (outcome : Except Fault (Option Grant))
  | allocation (account : Allocation)
  | collection (account : Collection)
  | store (outcome : Except Fault Bool)

/-- What a step tells its caller when it is taken on a heap. -/
def answer (h : Heap L) : Step → Answer
  | tryAllocate tag size => .request (HeapM.tryAllocate tag size h).1
  | allocate tag size roots => .allocation (h.allocate tag size roots).1
  | collect roots => .collection (h.collect roots).1
  | store block k w => .store (HeapM.store (.ofIndex block) k w h).1
  | storeReserved k w => .store (HeapM.storeReserved k w h).1

/-- A step that stores no reserved word. -/
def SparesReserved : Step → Prop
  | tryAllocate _ _ => True
  | allocate _ _ _ => True
  | collect _ => True
  | store _ _ _ => True
  | storeReserved _ _ => False

end Step

/-- The stores that overwrite `count` payload words of a block, from the `first` on. -/
def Grant.fill (g : Grant) (payload : Nat → Word) (first count : Nat) : List Step :=
  (List.range' first count).map fun k => .store g.block k (payload k)

/-- A step, with the payload for the block that it hands out, if it does. -/
structure Act where
  step : Step
  payload : Nat → Word

namespace Act

/-- The steps of an act: a block that is handed out is overwritten before anything else is done. -/
def steps (h : Heap L) (a : Act) : List Step :=
  match a.step.granted h with
  | some g => a.step :: g.fill a.payload 0 g.size
  | none => [a.step]

/-- The heap after an act. -/
def apply (h : Heap L) (a : Act) : Heap L := h.run (a.steps h)

/-- An act of regular use that leaves the reserved words alone. -/
def Regular (h : Heap L) (a : Act) : Prop := a.step.Regular h ∧ a.step.SparesReserved

end Act

namespace Heap

/-- What some steps, one after the other, tell their caller. -/
def answers (h : Heap L) : List Step → List Step.Answer
  | [] => []
  | s :: steps => s.answer h :: (s.apply h).answers steps

/-- The steps that some acts come to, one after the other. -/
def script (h : Heap L) : List Act → List Step
  | [] => []
  | a :: acts => a.steps h ++ (a.apply h).script acts

/-- Every one of some acts is regular where it is taken. -/
def Admits (h : Heap L) : List Act → Prop
  | [] => True
  | a :: acts => a.Regular h ∧ (a.apply h).Admits acts

/-- A caller that looks at two heaps, their reserved words apart, sees the same. -/
structure Indistinguishable (h h' : Heap L) : Prop where
  blocks : h'.blocks = h.blocks
  freeList : ∀ n, h'.freeList n = h.freeList n
  usage : h'.usage = h.usage
  counters : h'.counters = h.counters
  allocated : ∀ b, h'.Allocated b ↔ h.Allocated b
  payload : ∀ b, h.Allocated b → h'.payload (.ofIndex b) = h.payload (.ofIndex b)

variable {h h' m m' : Heap L} {blocks : List Nat} {steps later : List Step} {s : Step} {g : Grant}

theorem Alike.indistinguishable (ha : Alike Nowhere h h' blocks) : Indistinguishable h h' where
  blocks := ha.blocks_eq
  freeList := ha.freeList_eq
  usage := ha.usage_eq
  counters := ha.counters_eq
  allocated := fun _ => ha.allocated_iff
  payload := fun _ hb => ha.payload_eq hb

/-! ### Steps side by side -/

theorem answers_append (h : Heap L) (steps later : List Step) :
    h.answers (steps ++ later) = h.answers steps ++ (h.run steps).answers later := by
  induction steps generalizing h with
  | nil => rfl
  | cons s steps ih => exact congrArg _ (ih (s.apply h))

theorem run_append (h : Heap L) (steps later : List Step) :
    h.run (steps ++ later) = (h.run steps).run later := List.foldl_append

/-- Some steps tell the same in two heaps, and leave the reserved words of each alone. -/
structure Parallel (steps : List Step) (h h' : Heap L) : Prop where
  answers_eq : h'.answers steps = h.answers steps
  reserved : ∀ j, j < L.reserved →
    (h.run steps).word j = h.word j ∧ (h'.run steps).word j = h'.word j

theorem Parallel.nil (h h' : Heap L) : Parallel [] h h' := ⟨rfl, fun _ _ => ⟨rfl, rfl⟩⟩

theorem Parallel.append (hp : Parallel steps h h')
    (hl : Parallel later (h.run steps) (h'.run steps)) : Parallel (steps ++ later) h h' where
  answers_eq := by rw [answers_append, answers_append, hp.answers_eq, hl.answers_eq]
  reserved := by
    intro j hj
    rw [run_append, run_append]
    exact ⟨(hl.reserved j hj).1.trans (hp.reserved j hj).1,
      (hl.reserved j hj).2.trans (hp.reserved j hj).2⟩

/-- A collection leaves the reserved words alone. -/
theorem Settled.word_reserved {roots : Option Roots} {mid : List Nat}
    (hm : Settled h blocks roots m mid) {j : Nat} (hj : j < L.reserved) : m.word j = h.word j := by
  cases roots with
  | none =>
    obtain ⟨rfl, _⟩ := hm
    rfl
  | some roots => exact Reduced.reserved hm j hj

theorem Kept.word_reserved (hk : Kept m s m') (hspare : s.SparesReserved) {j : Nat}
    (hj : j < L.reserved) : m'.word j = m.word j := by
  have hres : L.reserved ≤ L.heapStart := Nat.le_add_right ..
  cases hk with
  | same _ hwords _ => exact word_of_words hwords j
  | store w hb _ =>
    have hlow := hb.1.1
    exact word_put_ne _ (by omega) w
  | storeReserved w _ => exact absurd hspare not_false

/-- Only stores to reserved words change them. -/
theorem Ordered.reserved_step (ho : h.Ordered blocks) (hs : s.Regular h)
    (hspare : s.SparesReserved) {j : Nat} (hj : j < L.reserved) :
    (s.apply h).word j = h.word j := by
  have hres : L.reserved ≤ L.heapStart := Nat.le_add_right ..
  cases ho.stepped hs with
  | granted hm _ hgranted =>
    rw [← hm.word_reserved hj]
    refine hgranted.word_eq j (.inl hj) fun c hc _ hcj => ?_
    have hlow := ((hm.ordered ho).bounds hc).1
    have hle := hcj.1
    omega
  | kept hm _ hkept => exact (hkept.word_reserved hspare hj).trans (hm.word_reserved hj)

/-- A step that tells the same runs side by side. -/
theorem Alike.parallel {raw : Nat → Prop} (ha : Alike raw h h' blocks) (hs : s.Regular h)
    (hs' : s.Regular h') (hspare : s.SparesReserved) (hanswer : s.answer h' = s.answer h) :
    Parallel [s] h h' where
  answers_eq := congrArg (fun answer => [answer]) hanswer
  reserved := fun _ hj =>
    ⟨ha.left.reserved_step hs hspare hj, ha.right.reserved_step hs' hspare hj⟩

/-- How two heaps compare once both have handed out the same block, or none. -/
def Matched : Option Grant → (m m' : Heap L) → Prop
  | some g, m, m' => Served g 0 m m'
  | none, m, m' => ∃ after, Alike Nowhere m m' after

/-- **One step.** A regular step of two heaps that are alike tells the same in both. -/
theorem Alike.step (ha : Alike Nowhere h h' blocks) (hs : s.Regular h)
    (hspare : s.SparesReserved) :
    s.Regular h' ∧ s.granted h' = s.granted h ∧ s.answer h' = s.answer h ∧
      Matched (s.granted h) (s.apply h) (s.apply h') := by
  cases s with
  | tryAllocate tag size =>
    rcases ha.tryAllocate tag size with ⟨hrun, hrun'⟩ | ⟨g, m, m', hrun, hrun', hserved⟩
    · simp only [Step.granted, Step.answer, Step.apply, hrun, hrun']
      exact ⟨trivial, trivial, trivial, blocks, ha⟩
    · simp only [Step.granted, Step.answer, Step.apply, hrun, hrun']
      exact ⟨trivial, trivial, trivial, hserved⟩
  | allocate tag size roots =>
    rcases ha.allocate hs tag size with ⟨c, e, m, m', after, hrun, hrun', halike⟩ |
      ⟨c, g, m, m', hrun, hrun', hserved⟩
    · simp only [Step.granted, Step.answer, Step.apply, hrun, hrun']
      exact ⟨hs, trivial, trivial, after, halike⟩
    · simp only [Step.granted, Step.answer, Step.apply, hrun, hrun']
      exact ⟨hs, trivial, trivial, hserved⟩
  | collect roots =>
    obtain ⟨traces, r, m, m', mid, hrun, hrun', halike⟩ := ha.collect hs
    simp only [Step.granted, Step.answer, Step.apply, hrun, hrun']
    exact ⟨hs, trivial, trivial, mid, halike⟩
  | store b k w =>
    have hb : h.Allocated b := hs
    obtain ⟨hstore, hstore'⟩ := ha.store hb k w
    simp only [Step.granted, Step.answer, Step.apply, hstore, hstore']
    refine ⟨ha.allocated_iff.2 hb, trivial, ?_⟩
    by_cases hk : k < h.sizeOf b
    · simp only [hk, if_true]
      exact ⟨trivial, blocks, (ha.put_payload hb hk w).mono fun _ hj => hj.1⟩
    · simp only [hk, if_false]
      exact ⟨trivial, blocks, ha⟩
  | storeReserved k w => exact absurd hspare not_false

/-- Storing the first word of a new block that was not written yet. -/
theorem Served.store {n : Nat} (hg : Served g n m m') (hn : n < g.size) (w : Word) :
    Parallel [.store g.block n w] m m' ∧
      Served g (n + 1) ((Step.store g.block n w).apply m)
        ((Step.store g.block n w).apply m') := by
  obtain ⟨hb, hsize, after, ha⟩ := hg
  obtain ⟨hstore, hstore'⟩ := ha.store hb n w
  rw [hsize, if_pos hn] at hstore hstore'
  refine ⟨ha.parallel hb (ha.allocated_iff.2 hb) trivial ?_, ?_⟩
  · simp only [Step.answer, hstore, hstore']
  · simp only [Step.apply, hstore, hstore']
    have hput := ha.put_payload hb (by rw [hsize]; exact hn) w
    have hlow := (ha.left.contained g.block hb).1
    refine ⟨⟨hb.1, ?_⟩, ?_, after, hput.mono fun j hj => ?_⟩
    · rw [bit_put_of_le m hb.1.hasBit (by omega)]
      exact hb.2
    · rw [sizeOf_congr (m.word_put_ne (by omega) w), hsize]
    · obtain ⟨⟨hlow, hhigh⟩, hne⟩ := hj
      exact ⟨by omega, hhigh⟩

/-- **Filling.** Once the payload of a new block was overwritten, nothing of it is stale. -/
theorem Served.fill (payload : Nat → Word) {n count : Nat} (hg : Served g n m m')
    (hcount : n + count = g.size) :
    Parallel (g.fill payload n count) m m' ∧
      ∃ after, Alike Nowhere (m.run (g.fill payload n count)) (m'.run (g.fill payload n count))
        after := by
  induction count generalizing n m m' with
  | zero =>
    obtain ⟨_, _, after, ha⟩ := hg
    exact ⟨.nil m m', after, ha.mono fun j hj => by omega⟩
  | succ count ih =>
    obtain ⟨hfirst, hg'⟩ := hg.store (by omega) (payload n)
    obtain ⟨hrest, halike⟩ := ih hg' (by omega)
    exact ⟨hfirst.append hrest, halike⟩

/-! ### Acts side by side -/

/-- **One act.** A regular act tells the same in two heaps that are alike, and leaves them alike. -/
theorem Alike.act (ha : Alike Nowhere h h' blocks) {a : Act} (hr : a.Regular h) :
    a.Regular h' ∧ a.steps h' = a.steps h ∧ Parallel (a.steps h) h h' ∧
      ∃ after, Alike Nowhere (a.apply h) (a.apply h') after := by
  obtain ⟨hs, hspare⟩ := hr
  obtain ⟨hs', hgranted, hanswer, hmatched⟩ := ha.step hs hspare
  have hfirst := ha.parallel hs hs' hspare hanswer
  have hsteps : a.steps h' = a.steps h := by rw [Act.steps, Act.steps, hgranted]
  refine ⟨⟨hs', hspare⟩, hsteps, ?_⟩
  rw [Act.apply, Act.apply, hsteps, Act.steps]
  cases hg : a.step.granted h with
  | none =>
    rw [hg] at hmatched
    exact ⟨hfirst, hmatched⟩
  | some g =>
    rw [hg] at hmatched
    obtain ⟨hrest, halike⟩ := Served.fill a.payload hmatched (Nat.zero_add g.size)
    exact ⟨hfirst.append hrest, halike⟩

/-- **A run.** Regular acts tell the same in two heaps that are alike, and leave them alike. -/
theorem Alike.script (ha : Alike Nowhere h h' blocks) {acts : List Act} (hr : h.Admits acts) :
    h'.Admits acts ∧ h'.script acts = h.script acts ∧ Parallel (h.script acts) h h' ∧
      ∃ after, Alike Nowhere (h.run (h.script acts)) (h'.run (h.script acts)) after := by
  induction acts generalizing h h' blocks with
  | nil => exact ⟨trivial, rfl, .nil h h', blocks, ha⟩
  | cons a acts ih =>
    obtain ⟨hfirst, hrest⟩ := hr
    obtain ⟨hfirst', hsteps, hparallel, after, halike⟩ := ha.act hfirst
    obtain ⟨hrest', hscript, hparallel', hlast⟩ := ih halike hrest
    have happly : a.apply h' = h'.run (a.steps h) := by rw [Act.apply, hsteps]
    refine ⟨⟨hfirst', hrest'⟩, ?_, ?_, ?_⟩
    · rw [Heap.script, Heap.script, hsteps, hscript]
    · rw [happly] at hparallel'
      exact hparallel.append hparallel'
    · rw [happly] at hlast
      rw [Heap.script, run_append, run_append]
      exact hlast

/-! ### Two arenas -/

/-- Two heaps that were just placed are one free block, whatever the arenas hold. -/
theorem alike_fresh (words words' : Vector Word L.size) :
    Alike Nowhere (fresh L words) (fresh L words') [L.firstBlock] := by
  have hho := ordered_fresh L words
  have hbit : ∀ b ∈ [L.firstBlock], ∀ words : Vector Word L.size,
      (fresh L words).bit b = false := fun b hb words =>
    bit_fresh L words (hho.inHeap hb).hasBit
  refine ⟨hho, ordered_fresh L words', fun b hb => ?_, fun b hb => ?_, fun b hb hset => ?_, rfl⟩
  · rw [hbit b hb, hbit b hb]
  · have hheader : b - 1 = L.heapStart := by
      rw [List.mem_singleton.1 hb]
      rfl
    have hne : L.heapStart ≠ L.firstBlock := Nat.ne_of_lt (Nat.lt_succ_self _)
    rw [hheader, word_fresh, word_fresh, if_neg hne, if_neg hne, if_pos rfl, if_pos rfl]
  · rw [hbit b hb] at hset
    cases hset

/-- Placing a heap looks at an arena's size only, and keeps its reserved words. -/
theorem exists_intoHeap {a a' : Arena} {start : Pointer} (hlength : a'.length = a.length)
    (ha : a.intoHeap start = .ok ⟨L, h⟩) :
    ∃ words words' : Vector Word L.size, words.toArray = a.words ∧ words'.toArray = a'.words ∧
      h = fresh L words ∧ a'.intoHeap start = .ok ⟨L, fresh L words'⟩ := by
  obtain ⟨hL, hplace, rfl⟩ := place_of_intoHeap ha
  have hplace' : ∀ (n : Nat) (hn : n < 1 <<< 30) (hna : n = a.length),
      Layout.place n hn start = .ok ⟨L, hL.trans hna.symm⟩ := by
    rintro n hn rfl
    exact hplace
  exact ⟨⟨a.words, _⟩, ⟨a'.words, _⟩, rfl, rfl, rfl,
    Arena.intoHeap_of_place (hplace' a'.length a'.addressable hlength)⟩

/-- **Stale memory never shows.** Take two arenas of the same size, whatever they hold, and place
    heaps in them at the same start. Then any regular acts come to the same steps in both, tell the
    same at every step, and leave heaps that a caller cannot tell apart; and each heap has the
    reserved words of its own arena. The first acts of a run are acts, too, so this is how it is
    after each of them. -/
theorem noninterference {a a' : Arena} {start : Pointer} (hlength : a'.length = a.length)
    (ha : a.intoHeap start = .ok ⟨L, h⟩) :
    ∃ h' : Heap L, a'.intoHeap start = .ok ⟨L, h'⟩ ∧
      ∀ acts, h.Admits acts → h'.Admits acts ∧
        let steps := h.script acts
        h'.script acts = steps ∧ h'.answers steps = h.answers steps ∧
          Indistinguishable (h.run steps) (h'.run steps) ∧
          (h.run steps).reserved = a.words.extract 0 L.reserved ∧
          (h'.run steps).reserved = a'.words.extract 0 L.reserved := by
  obtain ⟨words, words', hwords, hwords', rfl, hplace⟩ := exists_intoHeap hlength ha
  refine ⟨fresh L words', hplace, fun acts hr => ?_⟩
  obtain ⟨hr', hscript, hparallel, after, halike⟩ := (alike_fresh words words').script hr
  refine ⟨hr', hscript, hparallel.answers_eq, halike.indistinguishable, ?_, ?_⟩
  · rw [← hwords]
    exact reserved_eq_extract fun j hj =>
      (hparallel.reserved j hj).1.trans (word_fresh_reserved words hj)
  · rw [← hwords']
    exact reserved_eq_extract fun j hj =>
      (hparallel.reserved j hj).2.trans (word_fresh_reserved words' hj)

/-- The law for a cleared arena and one that is full of the address of the first block to be handed
    out, which the payloads and the links are not to be mistaken for. -/
theorem noninterference_small :
    let filled : Arena := ⟨16, Array.replicate 16 12, by decide, by decide, by decide⟩
    let roots : Roots := ⟨.ofIndex 3, .base, .base⟩
    let acts : List Act := [⟨.tryAllocate 7 2, fun _ => 1⟩, ⟨.store 3 0 24, fun _ => 0⟩,
      ⟨.allocate 9 4 roots, fun _ => 12⟩, ⟨.collect roots, fun _ => 0⟩]
    let steps := Heap.small.script acts
    filled.length = Arena.small.length ∧
      Arena.small.intoHeap (.ofIndex 1) = .ok ⟨Layout.small, Heap.small⟩ ∧
      Heap.small.Admits acts ∧
      ∃ h' : Heap Layout.small, filled.intoHeap (.ofIndex 1) = .ok ⟨Layout.small, h'⟩ ∧
        h'.answers steps = Heap.small.answers steps ∧
        Indistinguishable (Heap.small.run steps) (h'.run steps) ∧
        (Heap.small.run steps).reserved = #[0] ∧ (h'.run steps).reserved = #[12] := by
  intro filled roots acts steps
  have hroots : roots.Regular Layout.small := by decide +kernel
  have hblock : ((⟨.tryAllocate 7 2, fun _ => 1⟩ : Act).apply Heap.small).Allocated 3 := by
    decide +kernel
  have hr : Heap.small.Admits acts :=
    ⟨⟨trivial, trivial⟩, ⟨hblock, trivial⟩, ⟨hroots, trivial⟩, ⟨hroots, trivial⟩, trivial⟩
  have hlength : filled.length = Arena.small.length := rfl
  obtain ⟨h', hplace, hall⟩ := noninterference hlength Arena.intoHeap_small
  obtain ⟨_, _, hanswers, hsame, hleft, hright⟩ := hall acts hr
  have hzero : Arena.small.words.extract 0 Layout.small.reserved = #[0] := by decide +kernel
  have htwelve : filled.words.extract 0 Layout.small.reserved = #[12] := by decide +kernel
  exact ⟨hlength, Arena.intoHeap_small, hr, h', hplace, hanswers, hsame, hleft.trans hzero,
    hright.trans htwelve⟩

end Heap

end ArenaHeap
