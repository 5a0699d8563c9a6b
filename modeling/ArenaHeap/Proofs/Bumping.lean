import ArenaHeap.Proofs.LowestFit
import ArenaHeap.Proofs.Noninterference

namespace ArenaHeap

/-!
# A new heap is used up from its start

All free words of a heap that was just placed are one block. As long as nothing is collected they
stay one block, at the heap's end, and each request takes words off its start. So all that the list
of free blocks does then is count the words that are taken.

* `Layout.bump`, `Layout.bumps` — the answers to requests, by counting alone.
* `Heap.Bumped.tryAllocate`, `Heap.Bumped.run` — a heap gives the same answers, request by request
  and so over any number of them.
* `Heap.bumping` — what they are, in a heap that was just placed.
-/

variable {L : Layout}

/-! ### Counting -/

/-- The words that some blocks take, each with its header. -/
def wordsOf (granted : List Grant) : Nat := (granted.map fun g => g.size + Header.words).sum

/-- The words that blocks as large as requested take, each with its header. -/
def wordsFor (requests : List (Tag × Nat)) : Nat :=
  (requests.map fun r => requestSize r.2 + Header.words).sum

@[simp] theorem wordsOf_nil : wordsOf [] = 0 := rfl

@[simp] theorem wordsOf_cons (g : Grant) (granted : List Grant) :
    wordsOf (g :: granted) = g.size + 1 + wordsOf granted := by
  simp [wordsOf, Header.words]

@[simp] theorem wordsOf_append (xs ys : List Grant) :
    wordsOf (xs ++ ys) = wordsOf xs + wordsOf ys := by
  simp [wordsOf]

/-- The blocks among some answers are those of the first and those of the others. -/
theorem reduceOption_cons_eq (answer : Option Grant) (answers : List (Option Grant)) :
    (answer :: answers).reduceOption = answer.toList ++ answers.reduceOption := by
  cases answer <;> simp

@[simp] theorem wordsFor_nil : wordsFor [] = 0 := rfl

@[simp] theorem wordsFor_cons (r : Tag × Nat) (requests : List (Tag × Nat)) :
    wordsFor (r :: requests) = requestSize r.2 + 1 + wordsFor requests := by
  simp [wordsFor, Header.words]

@[simp] theorem wordsFor_append (xs ys : List (Tag × Nat)) :
    wordsFor (xs ++ ys) = wordsFor xs + wordsFor ys := by
  simp [wordsFor]

theorem one_le_requestSize (size : Nat) : 1 ≤ requestSize size := Nat.le_max_right ..

/-- No block takes a single word. -/
theorem wordsFor_ne_one (requests : List (Tag × Nat)) : wordsFor requests ≠ 1 := by
  cases requests with
  | nil => nofun
  | cons r requests =>
    have := one_le_requestSize r.2
    rw [wordsFor_cons]
    omega

namespace Layout

/-- The answer to a request if so many heap words are taken: the block behind those, with the word
    that would be left alone, or none if there are not enough words. -/
def bump (L : Layout) (taken : Nat) (r : Tag × Nat) : Option Grant :=
  if taken + wordsFor [r] ≤ L.heap then
    some {
      tag := r.1
      block := L.heapStart + Header.words + taken
      size := if taken + wordsFor [r] + 1 = L.heap then requestSize r.2 + 1 else requestSize r.2 }
  else none

/-- The answers to some requests, one after the other. -/
def bumps (L : Layout) (taken : Nat) : List (Tag × Nat) → List (Option Grant)
  | [] => []
  | r :: requests => L.bump taken r :: L.bumps (taken + wordsOf (L.bump taken r).toList) requests

variable {taken : Nat} {r : Tag × Nat} {requests before after : List (Tag × Nat)}

/-- A request that leaves more than a word takes what it asks for; one that leaves just a word takes
    that too. -/
theorem bump_cases (L : Layout) (taken : Nat) (r : Tag × Nat) :
    (L.heap < taken + wordsFor [r] ∧ L.bump taken r = none) ∨
    (taken + wordsFor [r] ≤ L.heap ∧ taken + wordsFor [r] + 1 ≠ L.heap ∧
      L.bump taken r = some ⟨r.1, L.heapStart + Header.words + taken, requestSize r.2⟩) ∨
    (taken + wordsFor [r] + 1 = L.heap ∧
      L.bump taken r = some ⟨r.1, L.heapStart + Header.words + taken, requestSize r.2 + 1⟩) := by
  unfold bump
  by_cases hfits : taken + wordsFor [r] ≤ L.heap
  · rw [if_pos hfits]
    by_cases hone : taken + wordsFor [r] + 1 = L.heap
    · rw [if_pos hone]
      exact .inr (.inr ⟨hone, rfl⟩)
    · rw [if_neg hone]
      exact .inr (.inl ⟨hfits, hone, rfl⟩)
  · rw [if_neg hfits]
    exact .inl ⟨Nat.lt_of_not_le hfits, rfl⟩

theorem bumps_append : L.bumps taken (before ++ after) =
    L.bumps taken before ++
      L.bumps (taken + wordsOf (L.bumps taken before).reduceOption) after := by
  induction before generalizing taken with
  | nil => simp [bumps]
  | cons r before ih =>
    rw [List.cons_append, bumps, ih, bumps, reduceOption_cons_eq, wordsOf_append, Nat.add_assoc,
      List.cons_append]

theorem length_bumps : (L.bumps taken requests).length = requests.length := by
  induction requests generalizing taken with
  | nil => rfl
  | cons r requests ih => rw [bumps, List.length_cons, ih, List.length_cons]

/-- All requests are served just if there are as many words as they ask for, headers included. -/
theorem bumps_all_some_iff (htaken : taken ≤ L.heap) :
    (∀ answer ∈ L.bumps taken requests, answer.isSome) ↔ taken + wordsFor requests ≤ L.heap := by
  induction requests generalizing taken with
  | nil => simpa [bumps] using htaken
  | cons r requests ih =>
    rw [bumps, List.forall_mem_cons]
    rcases L.bump_cases taken r with ⟨hlt, hb⟩ | ⟨hle, _, hb⟩ | ⟨hone, hb⟩
    all_goals
      simp only [wordsFor_cons, wordsFor_nil] at *
      rw [hb]
    · exact iff_of_false (by simp) (by omega)
    · rw [ih (by simp; omega)]
      simp
      omega
    · -- Then all words are taken, and any other request would ask for two at least.
      have := wordsFor_ne_one requests
      rw [ih (by simp; omega)]
      simp
      omega

/-- Nothing is taken off less than two words. -/
theorem bumps_exhausted (hfew : L.heap ≤ taken + 1) :
    ∀ answer ∈ L.bumps taken requests, answer = none := by
  induction requests with
  | nil => nofun
  | cons r requests ih =>
    have hnone : L.bump taken r = none := by
      have := one_le_requestSize r.2
      refine if_neg ?_
      simp only [wordsFor_cons, wordsFor_nil]
      omega
    rw [bumps, hnone, List.forall_mem_cons]
    exact ⟨rfl, ih⟩

/-- As long as the requests are served, each block lies behind what the ones before it asked for. -/
theorem bumps_getElem? (hfits : taken + wordsFor (before ++ [r]) ≤ L.heap) :
    (L.bumps taken (before ++ r :: after))[before.length]? =
      some (L.bump (taken + wordsFor before) r) := by
  induction before generalizing taken with
  | nil => rfl
  | cons q before ih =>
    have := one_le_requestSize r.2
    rcases L.bump_cases taken q with ⟨hlt, _⟩ | ⟨_, _, hb⟩ | ⟨hone, _⟩
    all_goals simp only [List.cons_append, wordsFor_cons, wordsFor_append, wordsFor_nil] at *
    · omega
    · rw [bumps, hb, List.length_cons, List.getElem?_cons_succ, ih]
      · simp [Nat.add_assoc]
      · simp
        omega
    · omega

/-- The heap words that are not taken, as blocks: they are one, if there are any. -/
def untaken (L : Layout) (taken : Nat) : List Nat :=
  if taken < L.heap then [L.heapStart + Header.words + taken] else []

/-- That block as a walk over the blocks reports it. -/
def untakenInfo (L : Layout) (taken b : Nat) : BlockInfo where
  index := b
  tag := Tag.free
  size := L.heap - taken - Header.words
  bit := false

theorem mem_untaken {b : Nat} :
    b ∈ L.untaken taken ↔ taken < L.heap ∧ b = L.heapStart + Header.words + taken := by
  unfold untaken
  split <;> simp [*]

theorem untaken_of_lt (h : taken < L.heap) :
    L.untaken taken = [L.heapStart + Header.words + taken] := if_pos h

theorem untaken_of_ge (h : L.heap ≤ taken) : L.untaken taken = [] := if_neg (Nat.not_lt.2 h)

end Layout

/-! ### Counting by the list of free blocks -/

/-- A block that was handed out, as a walk over the blocks reports it. -/
def Grant.info (g : Grant) : BlockInfo where
  index := g.block
  tag := g.tag
  size := g.size
  bit := true

/-- Some requests as steps that collect nothing. -/
def requestSteps (requests : List (Tag × Nat)) : List Step :=
  requests.map fun r => .tryAllocate r.1 r.2

namespace Heap

variable {h h' : Heap L} {blocks below rest above : List Nat} {granted : List Grant} {g : Grant}
  {tag : Tag} {size : Nat}

/-- A heap whose blocks are those that were handed out, and then the words that no request took. -/
structure Bumped (h : Heap L) (granted : List Grant) : Prop where
  wordsOf_le : wordsOf granted ≤ L.heap
  ordered : h.Ordered (granted.map (·.block) ++ L.untaken (wordsOf granted))
  info_granted : ∀ g ∈ granted, h.info g.block = g.info
  info_untaken : ∀ b ∈ L.untaken (wordsOf granted), h.info b = L.untakenInfo (wordsOf granted) b

theorem bumped_fresh (L : Layout) (words : Vector Word L.size) : (fresh L words).Bumped [] := by
  have huntaken : L.untaken 0 = [L.firstBlock] :=
    Layout.untaken_of_lt (Nat.lt_of_lt_of_le (by decide) L.fits)
  refine ⟨Nat.zero_le _, ?ordered, nofun, fun b hb => ?untaken⟩
  case ordered =>
    show (fresh L words).Ordered (L.untaken 0)
    rw [huntaken]
    exact ordered_fresh L words
  case untaken =>
    have hb' : b ∈ L.untaken 0 := hb
    rw [huntaken, List.mem_singleton] at hb'
    rw [hb']
    exact info_fresh L words

namespace Bumped

theorem freeOf_eq (hb : h.Bumped granted) :
    h.freeOf (granted.map (·.block) ++ L.untaken (wordsOf granted)) =
      L.untaken (wordsOf granted) := by
  have hgranted : ∀ b ∈ granted.map (·.block), ¬ (!h.bit b) = true := by
    intro b hmem
    obtain ⟨g, hg, rfl⟩ := List.mem_map.1 hmem
    have hset : h.bit g.block = true := congrArg BlockInfo.bit (hb.info_granted g hg)
    simp [hset]
  have huntaken : ∀ b ∈ L.untaken (wordsOf granted), (!h.bit b) = true := by
    intro b hmem
    have hclear : h.bit b = false := congrArg BlockInfo.bit (hb.info_untaken b hmem)
    simp [hclear]
  rw [freeOf, List.filter_append, List.filter_eq_nil_iff.2 hgranted,
    List.filter_eq_self.2 huntaken, List.nil_append]

/-- The words that are not taken are the payload and the header of one block. -/
theorem sizeOf_untaken (hb : h.Bumped granted) {b : Nat} (hmem : b ∈ L.untaken (wordsOf granted)) :
    wordsOf granted + h.sizeOf b + 1 = L.heap := by
  have hsize : h.sizeOf b = L.heap - wordsOf granted - Header.words :=
    congrArg BlockInfo.size (hb.info_untaken b hmem)
  have hlt := (Layout.mem_untaken.1 hmem).1
  rw [hsize, Header.words]
  omega

/-- If no block fits, there are not enough words. -/
theorem bump_of_refused (hb : h.Bumped granted) {r : Tag × Nat}
    (hsmall : ∀ b ∈ h.freeOf (granted.map (·.block) ++ L.untaken (wordsOf granted)),
      h.sizeOf b < requestSize r.2) : L.bump (wordsOf granted) r = none := by
  rw [hb.freeOf_eq] at hsmall
  refine if_neg fun hfits => ?_
  simp only [wordsFor_cons, wordsFor_nil] at hfits
  have hmem : L.heapStart + Header.words + wordsOf granted ∈ L.untaken (wordsOf granted) :=
    Layout.mem_untaken.2 ⟨by omega, rfl⟩
  have := hsmall _ hmem
  have := hb.sizeOf_untaken hmem
  omega

/-- A block that is handed out is cut off the start of the words that are not taken. -/
theorem split_of_handedOut (hb : h.Bumped granted)
    (hh : HandedOut h tag size g h' below rest above)
    (hblocks : granted.map (·.block) ++ L.untaken (wordsOf granted) = below ++ g.block :: above) :
    g.block ∈ L.untaken (wordsOf granted) ∧ below = granted.map (·.block) ∧ above = [] := by
  have hmem : g.block ∈ L.untaken (wordsOf granted) := by
    rw [← hb.freeOf_eq, hblocks]
    exact mem_freeOf.2 ⟨by simp, hh.free_before⟩
  obtain ⟨hlt, hplace⟩ := Layout.mem_untaken.1 hmem
  have hother : g.block ∉ granted.map (·.block) := by
    intro hin
    obtain ⟨g', hg', heq⟩ := List.mem_map.1 hin
    have hset : h.bit g'.block = true := congrArg BlockInfo.bit (hb.info_granted g' hg')
    rw [heq, hh.free_before] at hset
    cases hset
  rw [Layout.untaken_of_lt hlt, ← hplace] at hblocks
  obtain ⟨hbelow, _, habove⟩ := (List.append_cons_inj_of_notMem hother List.not_mem_nil).1 hblocks
  exact ⟨hmem, hbelow.symm, habove.symm⟩

/-- It is the one that counting gives, and what is left of the words is what counting leaves. -/
theorem bump_of_handedOut (hb : h.Bumped granted) {r : Tag × Nat}
    (hh : HandedOut h r.1 r.2 g h' below rest above)
    (hmem : g.block ∈ L.untaken (wordsOf granted)) :
    L.bump (wordsOf granted) r = some g ∧ wordsOf (granted ++ [g]) ≤ L.heap ∧
      L.untaken (wordsOf (granted ++ [g])) = rest := by
  obtain ⟨hlt, hplace⟩ := Layout.mem_untaken.1 hmem
  have hsize := hb.sizeOf_untaken hmem
  have hbump : ∀ n, g.size = n →
      some ⟨r.1, L.heapStart + Header.words + wordsOf granted, n⟩ = some g := by
    rintro _ rfl
    rw [← hh.tag_eq, ← hplace]
  rw [wordsOf_append, wordsOf_cons, wordsOf_nil]
  rcases hh.rest_eq with ⟨hcut, hg, hrest⟩ | ⟨hwhole, hg, hrest⟩
  · refine ⟨?_, by omega, ?_⟩
    · rcases L.bump_cases (wordsOf granted) r with ⟨hfew, _⟩ | ⟨_, _, hgiven⟩ | ⟨hone, _⟩
      all_goals simp only [wordsFor_cons, wordsFor_nil] at *
      · omega
      · exact hgiven.trans (hbump _ hg)
      · omega
    · rw [Layout.untaken_of_lt (by omega), hrest, hplace]
      simp only [Nat.add_assoc, Nat.add_zero]
  · have hall : wordsOf granted + (g.size + 1 + 0) = L.heap := by omega
    refine ⟨?_, Nat.le_of_eq hall, ?_⟩
    · have hfits := hh.size_le
      rcases L.bump_cases (wordsOf granted) r with ⟨hfew, _⟩ | ⟨_, hne, hgiven⟩ |
        ⟨hone, hgiven⟩
      all_goals simp only [wordsFor_cons, wordsFor_nil] at *
      · omega
      · exact hgiven.trans (hbump _ (by omega))
      · exact hgiven.trans (hbump _ (by omega))
    · rw [Layout.untaken_of_ge (Nat.le_of_eq hall.symm), hrest]

/-- What is left behind the block is again one block, at the heap's end. -/
theorem concat (hb : h.Bumped granted) {r : Tag × Nat}
    (hh : HandedOut h r.1 r.2 g h' (granted.map (·.block)) rest [])
    (hrun : HeapM.tryAllocate r.1 r.2 h = (.ok (some g), h'))
    (hmem : g.block ∈ L.untaken (wordsOf granted)) : h'.Bumped (granted ++ [g]) := by
  obtain ⟨_, hle, hrest⟩ := hb.bump_of_handedOut hh hmem
  refine ⟨hle, ?ordered, fun g' hg' => ?granted, ?untaken⟩
  case ordered =>
    rw [hrest]
    simpa using hh.ordered hb.ordered hrun
  case granted =>
    rcases List.mem_append.1 hg' with hold | hnew
    · rw [hh.info_eq _ (by simpa using ⟨g', hold, rfl⟩)]
      exact hb.info_granted g' hold
    · rw [List.mem_singleton.1 hnew, hh.info_block, ← hh.tag_eq]
      rfl
  case untaken =>
    rw [hrest]
    intro b hleft
    have hsize := hb.sizeOf_untaken hmem
    have hwords : h.sizeOf g.block - g.size - 1 =
        L.heap - wordsOf (granted ++ [g]) - Header.words := by
      simp only [wordsOf_append, wordsOf_cons, wordsOf_nil, Header.words]
      omega
    rw [hh.info_rest b hleft, hwords]
    rfl

/-- A request is answered by counting, and the heap goes on like that. -/
theorem tryAllocate (hb : h.Bumped granted) (r : Tag × Nat) :
    ∃ h', HeapM.tryAllocate r.1 r.2 h = (.ok (L.bump (wordsOf granted) r), h') ∧
      h'.Bumped (granted ++ (L.bump (wordsOf granted) r).toList) := by
  rcases hb.ordered.handedOut_cases r.1 r.2 with ⟨hrun, hsmall⟩ |
    ⟨g, h', below, rest, above, hrun, hblocks, hh⟩
  · rw [hb.bump_of_refused hsmall]
    exact ⟨h, hrun, by simpa using hb⟩
  · obtain ⟨hmem, rfl, rfl⟩ := hb.split_of_handedOut hh hblocks
    rw [(hb.bump_of_handedOut hh hmem).1]
    exact ⟨h', hrun, hb.concat hh hrun hmem⟩

/-- So any number of requests are answered by counting. -/
theorem run (hb : h.Bumped granted) (requests : List (Tag × Nat)) :
    h.answers (requestSteps requests) =
        (L.bumps (wordsOf granted) requests).map (fun answer => .request (.ok answer)) ∧
      (h.run (requestSteps requests)).Bumped
        (granted ++ (L.bumps (wordsOf granted) requests).reduceOption) := by
  induction requests generalizing h granted with
  | nil => exact ⟨rfl, by simpa [requestSteps, Heap.run, Layout.bumps] using hb⟩
  | cons r requests ih =>
    obtain ⟨h', hrun, hb'⟩ := hb.tryAllocate r
    obtain ⟨hanswers, hlast⟩ := ih hb'
    have happly : (Step.tryAllocate r.1 r.2).apply h = h' := by rw [Step.apply, hrun]
    have hanswer : (Step.tryAllocate r.1 r.2).answer h =
        .request (.ok (L.bump (wordsOf granted) r)) := by rw [Step.answer, hrun]
    rw [wordsOf_append] at hanswers hlast
    constructor
    · show (Step.tryAllocate r.1 r.2).answer h ::
        ((Step.tryAllocate r.1 r.2).apply h).answers (requestSteps requests) = _
      rw [happly, hanswer, hanswers]
      rfl
    · show (((Step.tryAllocate r.1 r.2).apply h).run (requestSteps requests)).Bumped _
      rw [happly, Layout.bumps, reduceOption_cons_eq, ← List.append_assoc]
      exact hlast

end Bumped

/-! ### The law -/

theorem Bumped.blocks_eq (hb : h.Bumped granted) : h.blocks = .ok (granted.map Grant.info ++
    (L.untaken (wordsOf granted)).map (L.untakenInfo (wordsOf granted))).toArray := by
  rw [h.blocks_eq_ok (tiles_iff.2 hb.ordered.tiles), List.map_append, List.map_map,
    List.map_congr_left hb.info_untaken, ← List.map_congr_left hb.info_granted]
  rfl

/-- **A new heap is used up from its start.** In a heap that was just placed, all of some requests
    are served just if the heap has as many words as they ask for, headers included. As long as they
    are served, each block lies behind what the requests before it asked for, and is as large as
    asked for, but for one that would leave a single word: it gets that too. When no more than a
    word is left no request is served any more. In the end the heap has the blocks that were handed
    out, and one free block behind them if there are words left. -/
theorem bumping {a : Arena} {start : Pointer} (ha : a.intoHeap start = .ok ⟨L, h⟩)
    (requests : List (Tag × Nat)) :
    ∃ answers : List (Option Grant),
      h.answers (requestSteps requests) = answers.map (fun answer => .request (.ok answer)) ∧
      ((∀ answer ∈ answers, answer.isSome) ↔ wordsFor requests ≤ L.heap) ∧
      (∀ before r after, requests = before ++ r :: after →
        wordsFor (before ++ [r]) ≤ L.heap →
        answers[before.length]? = some (some {
          tag := r.1
          block := L.heapStart + 1 + wordsFor before
          size := if wordsFor (before ++ [r]) + 1 = L.heap then requestSize r.2 + 1
            else requestSize r.2 })) ∧
      (∀ before after, requests = before ++ after →
        L.heap ≤ wordsOf (answers.take before.length).reduceOption + 1 →
        ∀ answer ∈ answers.drop before.length, answer = none) ∧
      (h.run (requestSteps requests)).blocks = .ok
        (answers.reduceOption.map Grant.info ++
          (L.untaken (wordsOf answers.reduceOption)).map
            (L.untakenInfo (wordsOf answers.reduceOption))).toArray := by
  obtain ⟨words, rfl⟩ := eq_fresh_of_intoHeap ha
  obtain ⟨hanswers, hlast⟩ := (bumped_fresh L words).run requests
  rw [wordsOf_nil] at hanswers hlast
  refine ⟨L.bumps 0 requests, hanswers, ?served, ?place, ?exhausted, hlast.blocks_eq⟩
  case served =>
    rw [Layout.bumps_all_some_iff (Nat.zero_le _), Nat.zero_add]
  case place =>
    rintro before r after rfl hfits
    rw [Layout.bumps_getElem? (by rwa [Nat.zero_add]), Nat.zero_add]
    rw [wordsFor_append] at hfits ⊢
    exact congrArg some (if_pos hfits)
  case exhausted =>
    rintro before after rfl hfew
    have hlength : (L.bumps 0 before).length = before.length := Layout.length_bumps
    rw [Layout.bumps_append, List.take_left' hlength] at hfew
    rw [Layout.bumps_append, List.drop_left' hlength, Nat.zero_add]
    exact Layout.bumps_exhausted hfew

/-- Of fourteen words three requests ask for thirteen, so the last block gets the fourteenth, and a
    fourth request is refused. -/
theorem bumping_small : ∃ answers : List (Option Grant),
    small.answers (requestSteps [(7, 3), (8, 0), (9, 6), (9, 1)]) =
        answers.map (fun answer => .request (.ok answer)) ∧
      answers[2]? = some (some ⟨9, 9, 7⟩) ∧ ¬ ∀ answer ∈ answers, answer.isSome := by
  obtain ⟨answers, hanswers, hserved, hplace, _, _⟩ :=
    bumping Arena.intoHeap_small [(7, 3), (8, 0), (9, 6), (9, 1)]
  refine ⟨answers, hanswers, ?_, mt hserved.1 (by decide)⟩
  exact hplace [(7, 3), (8, 0)] (9, 6) [(9, 1)] rfl (by decide)

end Heap

end ArenaHeap
