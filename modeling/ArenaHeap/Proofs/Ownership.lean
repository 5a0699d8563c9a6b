import ArenaHeap.Proofs.RegularUse

namespace ArenaHeap

/-!
# A block belongs to its holder

From the time a block is handed out until a collection finds that it cannot be reached, nobody but
its holder changes it, and no word of it is handed out again.

* `Heap.Owned.step` — what one step leaves of an allocated block that it does not drop: all but
  what is stored in it.
* `Heap.Owned.run` — so does a run of steps.
* `Heap.Reached.ownership` — the law, from the step that hands the block out.
-/

variable {L : Layout}

/-- The words of a block that was handed out: its header and its payload. -/
def Grant.Covers (g : Grant) (i : Nat) : Prop := g.block ≤ i + 1 ∧ i < g.block + g.size

/-- What a payload word of a block holds after a step that stores, or does not, another word
    there. -/
def Step.stored (block k : Nat) (w : Word) : Step → Word
  | store b l v => if b = block ∧ l = k then v else w
  | tryAllocate _ _ => w
  | allocate _ _ _ => w
  | collect _ => w
  | storeReserved _ _ => w

namespace Heap

/-- The heap after some steps. -/
def run (h : Heap L) (steps : List Step) : Heap L := steps.foldl Step.apply h

/-- A run of regular use in which every completed collection finds a block reachable. -/
def Retains (block : Nat) : (h : Heap L) → (steps : List Step) → Prop
  | _, [] => True
  | h, s :: steps => s.Regular h ∧ (∀ roots ∈ s.collected h, h.Reachable roots.candidates block) ∧
      Retains block (s.apply h) steps

/-- The word that some steps stored last in a payload word of a block, which held `w` before. -/
def lastStored (block k : Nat) (w : Word) (steps : List Step) : Word :=
  steps.foldl (Step.stored block k) w

/-- An allocated block with its header. -/
structure Owned (h : Heap L) (block : Nat) (tag : Tag) (size : Nat) : Prop where
  allocated : h.Allocated block
  tagOf_eq : h.tagOf block = tag
  sizeOf_eq : h.sizeOf block = size

variable {h h' m : Heap L} {blocks mid after : List Nat} {s : Step} {b size : Nat} {tag : Tag}
  {g : Grant}

/-! ### One step -/

namespace Owned

/-- The header is one word, so a block is owned as long as that word and the bit stay. -/
theorem congr (hb : h.Owned b tag size) (hbit : h'.bit b = true)
    (hword : h'.word (b - 1) = h.word (b - 1)) : h'.Owned b tag size where
  allocated := ⟨hb.allocated.1, hbit⟩
  tagOf_eq := (tagOf_congr hword).trans hb.tagOf_eq
  sizeOf_eq := (sizeOf_congr hword).trans hb.sizeOf_eq

theorem pos (hb : h.Owned b tag size) : 0 < b :=
  Nat.lt_of_lt_of_le L.heapStart_pos hb.allocated.1.1

/-- A collection that finds a block reachable leaves it alone. -/
theorem settled (hb : h.Owned b tag size) (htag : tag ≠ Tag.free) {roots : Option Roots}
    (hm : Settled h blocks roots m mid) (hreach : ∀ r ∈ roots, h.Reachable r.candidates b) :
    m.Owned b tag size ∧ ∀ k < size, m.word (b + k) = h.word (b + k) := by
  cases roots with
  | none =>
    obtain ⟨rfl, rfl⟩ := hm
    exact ⟨hb, fun _ _ => rfl⟩
  | some r =>
    have hc : Collected h r blocks m mid := hm
    have hs : h.Survives r b := ⟨hreach r rfl, hb.tagOf_eq ▸ htag⟩
    refine ⟨hb.congr (hc.allocated_iff.2 hs).2 (hc.header_eq hs hb.pos), fun k hk => ?_⟩
    rw [← hb.sizeOf_eq] at hk
    exact hc.kept b hs _ ⟨by omega, by omega⟩

/-- A block that is handed out is made of a free one, so it shares no word with an allocated
    block. -/
theorem granted (hb : m.Owned b tag size) (ho : m.Ordered mid) {t : Tag} {n : Nat}
    (hg : Granted m mid t n g h' after) :
    h'.Owned b tag size ∧ (∀ k < size, h'.word (b + k) = m.word (b + k)) ∧
      (g.block + g.size < b ∨ b + size < g.block) := by
  obtain ⟨hmem, hbit⟩ := ho.allocated_iff.1 hb.allocated
  have hbound := ho.bounds hmem
  -- The free blocks are the only ones whose words change.
  have hword : ∀ j, m.Covers b j → h'.word j = m.word j := by
    intro j hj
    obtain ⟨hj₁, hj₂⟩ := hj
    exact hg.word_eq j (.inr (by omega)) fun c hc => ho.not_covers_free hmem hbit ⟨hj₁, hj₂⟩ hc
  have hne : g.block ≠ b := by
    intro hgb
    have hclear := hg.free_before
    rw [hgb, hbit] at hclear
    cases hclear
  have hset : h'.bit b = true := by
    rw [hg.bit_eq b hb.allocated.1.hasBit, hbit, Bool.or_true]
  refine ⟨hb.congr hset (hword _ ⟨by omega, by omega⟩), fun k hk => ?_, ?_⟩
  · rw [← hb.sizeOf_eq] at hk
    exact hword _ ⟨by omega, by omega⟩
  · rw [← hb.sizeOf_eq]
    have hle := hg.size_le_before
    rcases ho.tiles.disjoint hg.mem_before hmem hne with hlt | hlt <;> omega

/-- A store changes the one word that it names. -/
theorem kept (hb : m.Owned b tag size) (ho : m.Ordered mid) (hk : Kept m s h') :
    h'.Owned b tag size ∧ ∀ k < size, h'.word (b + k) = s.stored b k (m.word (b + k)) := by
  obtain ⟨hmem, hbit⟩ := ho.allocated_iff.1 hb.allocated
  have hbound := ho.bounds hmem
  -- A store may hit the block itself, another one or the reserved part.
  cases hk with
  | same hstore hwords _ =>
    have hword := word_of_words hwords
    refine ⟨hb.congr ((bit_congr (hword _)).trans hbit) (hword _), fun k hk => ?_⟩
    rw [hword]
    cases s with
    | store c l v =>
      have hle := hstore c l v rfl
      refine (if_neg ?_).symm
      rintro ⟨rfl, rfl⟩
      rw [hb.sizeOf_eq] at hle
      omega
    | _ => rfl
  | @store c l v hc hl =>
    have hcmem := (ho.allocated_iff.1 hc).1
    have hcbound := ho.bounds hcmem
    refine ⟨hb.congr ?_ (m.word_put_ne ?_ v), fun k hk => ?_⟩
    · rw [bit_put_of_le m hb.allocated.1.hasBit (by omega)]
      exact hbit
    · by_cases hcb : c = b
      · omega
      · rcases ho.tiles.disjoint hcmem hmem hcb with hlt | hlt <;> omega
    · rw [← hb.sizeOf_eq] at hk
      show _ = if c = b ∧ l = k then v else m.word (b + k)
      by_cases hcb : c = b
      · subst hcb
        by_cases hlk : l = k
        · subst hlk
          rw [if_pos ⟨rfl, rfl⟩]
          exact m.word_put_self (by rw [Layout.heapEnd] at hbound; omega) v
        · rw [if_neg fun hc => hlk hc.2]
          exact m.word_put_ne (by omega) v
      · rw [if_neg fun hc => hcb hc.1]
        refine m.word_put_ne ?_ v
        rcases ho.tiles.disjoint hcmem hmem hcb with hlt | hlt <;> omega
  | @storeReserved l v hl =>
    have hres : L.reserved ≤ L.heapStart := Nat.le_add_right ..
    refine ⟨hb.congr ?_ (m.word_put_ne (by omega) v), fun k _ => m.word_put_ne (by omega) v⟩
    rw [bit_put_of_lt m b hl]
    exact hbit

end Owned

/-- A step that hands out a block stores nothing. -/
theorem stored_of_granted (hg : s.granted h = some g) (k : Nat) (w : Word) :
    s.stored b k w = w := by
  cases s with
  | store c l v => cases hg
  | _ => rfl

/-- A block that is handed out lies in the heap, behind the bitmap. -/
theorem Granted.bounds {t : Tag} {n : Nat} (hg : Granted m mid t n g h' after)
    (ho : m.Ordered mid) : L.heapStart < g.block ∧ g.block + g.size ≤ L.heapEnd := by
  have hbound := ho.bounds hg.mem_before
  have hle := hg.size_le_before
  omega

/-- **One step.** A step of regular use that does not drop an allocated block changes no word of
    it but the one it stores, and what it hands out lies elsewhere. -/
theorem Owned.step (hb : h.Owned b tag size) (htag : tag ≠ Tag.free) (ho : h.Ordered blocks)
    (hs : s.Regular h) (hreach : ∀ roots ∈ s.collected h, h.Reachable roots.candidates b) :
    (s.apply h).Owned b tag size ∧
      (∀ k < size, (s.apply h).word (b + k) = s.stored b k (h.word (b + k))) ∧
      ∀ g ∈ s.granted h, (g.block + g.size < b ∨ b + size < g.block) ∧
        L.heapStart < g.block ∧ g.block + g.size ≤ L.heapEnd := by
  cases ho.stepped hs with
  | granted hm hg hgranted =>
    have hom := hm.ordered ho
    obtain ⟨hbm, hwords⟩ := hb.settled htag hm hreach
    obtain ⟨hb', hwords', hapart⟩ := hbm.granted hom hgranted
    refine ⟨hb', fun k hk => ?_, fun g' hg' => ?_⟩
    · rw [stored_of_granted hg, hwords' k hk, hwords k hk]
    · rw [hg] at hg'
      cases hg'
      exact ⟨hapart, hgranted.bounds hom⟩
  | kept hm hg hkept =>
    obtain ⟨hbm, hwords⟩ := hb.settled htag hm hreach
    obtain ⟨hb', hwords'⟩ := hbm.kept (hm.ordered ho) hkept
    refine ⟨hb', fun k hk => ?_, fun g' hg' => ?_⟩
    · rw [hwords' k hk, hwords k hk]
    · rw [hg] at hg'
      cases hg'

/-! ### Runs -/

/-- **A run.** As long as no completed collection drops an allocated block, it stays where it is,
    and its payload holds what was stored there last. -/
theorem Owned.run {steps : List Step} (hb : h.Owned b tag size) (htag : tag ≠ Tag.free)
    (ho : h.Ordered blocks) (hspan : Retains b h steps) :
    (∃ after, (h.run steps).Ordered after) ∧ (h.run steps).Owned b tag size ∧
      ∀ k < size, (h.run steps).word (b + k) = lastStored b k (h.word (b + k)) steps := by
  induction steps generalizing h blocks with
  | nil => exact ⟨⟨blocks, ho⟩, hb, fun _ _ => rfl⟩
  | cons s steps ih =>
    obtain ⟨hs, hreach, hrest⟩ := hspan
    obtain ⟨hb', hwords, _⟩ := hb.step htag ho hs hreach
    obtain ⟨after, ho'⟩ := ho.step hs
    obtain ⟨hordered, howned, hlast⟩ := ih hb' ho' hrest
    refine ⟨hordered, howned, fun k hk => ?_⟩
    have hfirst := hlast k hk
    rw [hwords k hk] at hfirst
    exact hfirst

/-- **Ownership.** A block that regular use hands out, not tagged as free, keeps its place, its tag
    and its size until a completed collection finds it unreachable. Till then its payload words
    hold what was stored in them last, and no block that is handed out shares a word with it, with
    the bitmap or with the reserved words. -/
theorem Reached.ownership (hr : h.Reached) (hs : s.Regular h) (hg : s.granted h = some g)
    (htag : g.tag ≠ Tag.free) {steps : List Step} (hspan : Retains g.block (s.apply h) steps) :
    let placed := s.apply h
    let h' := placed.run steps
    h'.Allocated g.block ∧ h'.tagOf g.block = g.tag ∧ h'.sizeOf g.block = g.size ∧
      (∀ k < g.size, h'.word (g.block + k) =
        lastStored g.block k (placed.word (g.block + k)) steps) ∧
      ∀ s' g', Retains g.block h' [s'] → s'.granted h' = some g' →
        ∀ i, g'.Covers i → ¬ g.Covers i ∧ L.heapStart ≤ i ∧ i < L.heapEnd := by
  intro placed h'
  obtain ⟨blocks, ho⟩ := hr.ordered
  have howned : placed.Owned g.block g.tag g.size ∧ ∃ after, placed.Ordered after := by
    cases ho.stepped hs with
    | granted _ hg₀ hgranted =>
      rw [hg] at hg₀
      cases hg₀
      have hin := hgranted.ordered.inHeap hgranted.mem_after
      have hset : placed.bit g.block = true := by
        rw [hgranted.bit_eq _ hin.hasBit, decide_eq_true rfl, Bool.true_or]
      exact ⟨⟨⟨hin, hset⟩, hgranted.tagOf_eq, hgranted.sizeOf_eq⟩, _, hgranted.ordered⟩
    | kept _ hg₀ _ =>
      rw [hg] at hg₀
      cases hg₀
  obtain ⟨hb, after, hafter⟩ := howned
  obtain ⟨⟨later, hlater⟩, hb', hlast⟩ := hb.run htag hafter hspan
  refine ⟨hb'.allocated, hb'.tagOf_eq, hb'.sizeOf_eq, hlast, fun s' g' hnext hg' i hi => ?_⟩
  obtain ⟨hs', hreach, _⟩ := hnext
  obtain ⟨hapart, hlow, hhigh⟩ := (hb'.step htag hlater hs' hreach).2.2 g' hg'
  obtain ⟨hi₁, hi₂⟩ := hi
  refine ⟨fun ⟨hj₁, hj₂⟩ => ?_, by omega, by omega⟩
  rcases hapart with hlt | hlt <;> omega

/-- A word stored in a block is still there after another request and a collection. -/
theorem ownership_small :
    let placed := (Step.tryAllocate 7 2).apply Heap.small
    let steps := [.store 3 0 99, .tryAllocate 9 4, .collect ⟨.ofIndex 3, .base, .base⟩]
    Heap.small.Reached ∧ (Step.tryAllocate 7 2).granted Heap.small = some ⟨7, 3, 2⟩ ∧
      Retains 3 placed steps ∧ (placed.run steps).Allocated 3 ∧
      (placed.run steps).word 3 = 99 := by
  intro placed steps
  have hs : (Step.tryAllocate 7 2).Regular Heap.small := trivial
  have hg : (Step.tryAllocate 7 2).granted Heap.small = some ⟨7, 3, 2⟩ := by decide +kernel
  have hspan : Retains 3 placed steps := by
    refine ⟨?_, ?_, trivial, ?_, ?_, ?_, trivial⟩
    · show Heap.Allocated placed 3
      decide +kernel
    · exact fun _ hr => nomatch hr
    · exact fun _ hr => nomatch hr
    · show Roots.Regular _ Layout.small
      decide +kernel
    · intro r hr
      simp only [Step.collected] at hr
      split at hr
      · cases hr
        exact .candidate (by decide +kernel) (by decide +kernel)
      · cases hr
  obtain ⟨hallocated, _, _, hlast, _⟩ :=
    reached_small.ownership hs hg (by decide) hspan
  exact ⟨reached_small, hg, hspan, hallocated, hlast 0 (by decide)⟩

end Heap

end ArenaHeap
