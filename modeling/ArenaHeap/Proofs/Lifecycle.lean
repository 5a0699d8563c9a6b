import ArenaHeap.ProcessHeap

namespace ArenaHeap

/-!
# The lifecycle of the process-wide heap

Whatever calls are made and in whatever order, the process-wide heap is in one of three stages, and
the calls alone say in which one: `Stage.next` does not look at words, lists or roots. A call that
the stage does not allow, or that is refused, changes nothing.

* `Call`, `ProcessHeap.run` — sequences of calls.
* `Stage.next`, `Stage.Accepts` — the three-stage machine.
* `Call.stage_perform`, `Call.accepted_iff`, `Call.perform_of_error` — one call.
* `ProcessHeap.lifecycle` — all sequences of calls.
-/

/-! ### Calls -/

/-- A call of the process-wide heap. The roots that are registered may move between two calls; to
    the heap that is no different from registering them anew. -/
inductive Call : Type 1 where
  | setup (bytes : Nat)
  | setHeapStart (first : Pointer)
  | setRoots (roots : Roots)
  | allocate (tag : Tag) (size : Nat)
  | withHeap (α : Type) (act : {L : Layout} → Heap L → α × Heap L)
  | blockSize (block : Pointer)
  | blockTag (block : Pointer)
  | start
  | limit
  | cleanup

namespace Call

/-- What a call answers. -/
def Answer : Call → Type
  | setup _ => Except HeapError Unit
  | setHeapStart _ => Except HeapError Unit
  | setRoots _ => Unit
  | allocate _ _ => Allocation
  | withHeap α _ => Except HeapError α
  | blockSize _ => Except HeapError (Except Fault Nat)
  | blockTag _ => Except HeapError (Except Fault Tag)
  | start => Except HeapError Pointer
  | limit => Except HeapError Pointer
  | cleanup => Unit

/-- What a call answers and leaves. -/
def perform (p : ProcessHeap) : (c : Call) → c.Answer × ProcessHeap
  | setup bytes => p.setup bytes
  | setHeapStart first => p.setHeapStart first
  | setRoots roots => ((), p.setRoots roots)
  | allocate tag size => p.allocate tag size
  | withHeap _ act => p.withHeap act
  | blockSize block => (p.blockSize block, p)
  | blockTag block => (p.blockTag block, p)
  | start => (p.start, p)
  | limit => (p.limit, p)
  | cleanup => ((), p.cleanup)

/-- The error in a result. -/
def errorOf {α : Type} : Except HeapError α → Option HeapError
  | .ok _ => none
  | .error e => some e

/-- The error that a call returns, if it does. A fault is none: a call that meets one does not
    return. -/
def error? : (c : Call) → c.Answer → Option HeapError
  | setup _, a => errorOf a
  | setHeapStart _, a => errorOf a
  | setRoots _, _ => none
  | allocate _ _, a =>
    match a.outcome with
    | .ok (.error e) => some e
    | _ => none
  | withHeap _ _, a => errorOf a
  | blockSize _, a => errorOf a
  | blockTag _, a => errorOf a
  | start, a => errorOf a
  | limit, a => errorOf a
  | cleanup, _ => none

/-- The roots registered after a call. -/
def nextRoots : Call → Option Roots → Option Roots
  | setRoots roots, _ => some roots
  | cleanup, _ => none
  | _, roots => roots

end Call

/-- The answers to some calls, one after the other, and what they leave. A fatal error ends the
    process: the call does not return, and nothing is left. -/
def ProcessHeap.run (p : ProcessHeap) :
    List Call → List ((c : Call) × c.Answer) × Option ProcessHeap
  | [] => ([], some p)
  | c :: calls =>
    let (answer, p) := c.perform p
    if (c.error? answer).any HeapError.isFatal then ([], none)
    else
      let (answers, left) := p.run calls
      (⟨c, answer⟩ :: answers, left)

/-! ### The machine -/

/-- A stage of the process-wide heap. -/
inductive Stage where
  | uninitialized
  | arenaOnly (words : Nat) (addressable : words < 1 <<< 30)
  | ready (L : Layout)

/-- The stage that a phase is in. -/
def Phase.stage : Phase → Stage
  | .uninitialized => .uninitialized
  | .arenaOnly arena => .arenaOnly arena.length arena.addressable
  | .ready (L := L) _ => .ready L

namespace Stage

/-- The stage after a call. -/
def next : Stage → Call → Stage
  | .uninitialized, .setup bytes =>
    if h : Arena.SizeOk bytes then .arenaOnly (bytes / Word.bytes) h.length_lt
    else .uninitialized
  | .arenaOnly words h, .setHeapStart first =>
    match Layout.place words h first with
    | .ok placed => .ready placed.val
    | .error _ => .arenaOnly words h
  | _, .cleanup => .uninitialized
  | stage, _ => stage

/-- The calls that a stage allows and that are not refused for their arguments. -/
def Accepts (stage : Stage) : Call → Prop
  | .setup bytes => stage = .uninitialized ∧ ∃ arena, Arena.new bytes = .ok arena
  | .setHeapStart first => ∃ words h placed, stage = .arenaOnly words h ∧
      Layout.place words h first = .ok placed
  | .setRoots _ => True
  | .allocate _ _ => ∃ L, stage = .ready L
  | .withHeap _ _ => ∃ L, stage = .ready L
  | .blockSize _ => ∃ L, stage = .ready L
  | .blockTag _ => ∃ L, stage = .ready L
  | .start => stage ≠ .uninitialized
  | .limit => stage ≠ .uninitialized
  | .cleanup => True

end Stage

/-- A call was accepted: it returned no error. A request was accepted if it got as far as a heap,
    which may still refuse it. -/
def Call.Accepted : (c : Call) → c.Answer → Prop
  | .allocate tag size, a => (Call.allocate tag size).error? a ≠ some .notInitialized
  | c, a => c.error? a = none

/-! ### What calls come to -/

/-- A request that a heap refuses leaves it as it was, unless memory is out. -/
theorem Heap.allocate_error {L : Layout} {h : Heap L} {tag : Tag} {size : Nat} {roots : Roots}
    {e : HeapError} (he : (h.allocate tag size roots).1.outcome = .ok (.error e)) :
    (e = .reservedTag tag ∧ (h.allocate tag size roots).2 = h) ∨
      ∃ free, e = .outOfMemory size free := by
  by_cases htag : tag = Tag.free
  · rw [Heap.allocate, if_pos htag] at he ⊢
    cases he
    exact .inl ⟨rfl, rfl⟩
  · refine .inr ?_
    rw [Heap.allocate, if_neg htag] at he
    -- Of the four ways on only the second attempt can end in an error.
    split at he
    · cases he
    · cases he
    · split at he
      · cases he
      · rename_i c m hcollect hnot
        have hretry : (m.retry tag size).1 = .ok (.error e) := he
        unfold Heap.retry at hretry
        split at hretry
        · cases hretry
        · cases hretry
        · dsimp only at hretry
          split at hretry
          · cases hretry
          · cases hretry
            exact ⟨_, rfl⟩

namespace ProcessHeap

/-- Making the arena succeeds, or changes nothing. -/
theorem setup_cases (p : ProcessHeap) (bytes : Nat) :
    (∃ a, p.phase = .uninitialized ∧ Arena.SizeOk bytes ∧ Arena.new bytes = .ok a ∧
      a.length = bytes / Word.bytes ∧ p.setup bytes = (.ok (), { p with phase := .arenaOnly a })) ∨
    ∃ e, ¬ (p.phase = .uninitialized ∧ Arena.SizeOk bytes) ∧ p.setup bytes = (.error e, p) := by
  obtain ⟨phase, roots⟩ := p
  cases phase with
  | uninitialized =>
    by_cases hsize : Arena.SizeOk bytes
    · refine .inl ⟨_, rfl, hsize, dif_pos hsize, rfl, ?_⟩
      simp only [setup, Arena.new, dif_pos hsize]
    · refine .inr ⟨.invalidArenaSize bytes, fun hok => hsize hok.2, ?_⟩
      simp only [setup, Arena.new, dif_neg hsize]
  | arenaOnly a => exact .inr ⟨_, fun hok => Phase.noConfusion hok.1, rfl⟩
  | ready h => exact .inr ⟨_, fun hok => Phase.noConfusion hok.1, rfl⟩

/-- Placing the heap succeeds, and then the arena was turned into it; or it changes nothing, and
    then the arena is still there. -/
theorem setHeapStart_cases (p : ProcessHeap) (first : Pointer) :
    (∃ a placed h, p.phase = .arenaOnly a ∧
      Layout.place a.length a.addressable first = .ok placed ∧
      a.intoHeap first = .ok ⟨placed.val, h⟩ ∧
      p.setHeapStart first = (.ok (), { p with phase := .ready h })) ∨
    ∃ e, (∀ a placed, p.phase = .arenaOnly a →
        Layout.place a.length a.addressable first ≠ .ok placed) ∧
      p.setHeapStart first = (.error e, p) := by
  obtain ⟨phase, roots⟩ := p
  cases phase with
  | uninitialized => exact .inr ⟨_, fun _ _ hp => Phase.noConfusion hp, rfl⟩
  | ready h => exact .inr ⟨_, fun _ _ hp => Phase.noConfusion hp, rfl⟩
  | arenaOnly a =>
    cases hplace : Layout.place a.length a.addressable first with
    | ok placed =>
      obtain ⟨L, hL⟩ := placed
      -- Turning the arena into a heap checks the start once more, with the same result.
      have hinto := Arena.intoHeap_of_place hplace
      refine .inl ⟨a, ⟨L, hL⟩, _, rfl, hplace, hinto, ?_⟩
      simp only [setHeapStart, hplace, hinto]
    | error e =>
      refine .inr ⟨e, fun b placed hp => ?_, ?_⟩
      · cases hp
        simp [hplace]
      · simp only [setHeapStart, hplace]

end ProcessHeap

/-! ### One call -/

namespace Phase

variable {P : Phase → Prop} (hnone : ¬ P .uninitialized)

include hnone

/-- What holds just where there is a heap depends on the stage alone. -/
theorem ready_iff (harena : ∀ a, ¬ P (.arenaOnly a))
    (hready : ∀ {L : Layout} (h : Heap L), P (.ready h)) (phase : Phase) :
    P phase ↔ ∃ L, phase.stage = .ready L := by
  cases phase with
  | uninitialized => exact iff_of_false hnone fun ⟨_, hstage⟩ => nomatch hstage
  | arenaOnly a => exact iff_of_false (harena a) fun ⟨_, hstage⟩ => nomatch hstage
  | ready h => exact iff_of_true (hready h) ⟨_, rfl⟩

/-- So does what holds just where there is an arena, in a heap or not. -/
theorem started_iff (harena : ∀ a, P (.arenaOnly a))
    (hready : ∀ {L : Layout} (h : Heap L), P (.ready h)) (phase : Phase) :
    P phase ↔ phase.stage ≠ .uninitialized := by
  cases phase with
  | uninitialized => exact iff_of_false hnone fun hne => hne rfl
  | arenaOnly a => exact iff_of_true (harena a) nofun
  | ready h => exact iff_of_true (hready h) nofun

end Phase

namespace Call

theorem error?_allocate {tag : Tag} {size : Nat} {a : Allocation} {e : HeapError} :
    (allocate tag size).error? a = some e ↔ a.outcome = .ok (.error e) := by
  obtain ⟨collection, outcome⟩ := a
  rcases outcome with fault | (refusal | g) <;> simp [error?]

theorem stage_perform (c : Call) (p : ProcessHeap) :
    (c.perform p).2.phase.stage = p.phase.stage.next c := by
  cases c with
  | setup bytes =>
    show (p.setup bytes).2.phase.stage = _
    rcases p.setup_cases bytes with ⟨a, hp, hsize, _, hlength, hrun⟩ | ⟨e, hnot, hrun⟩
    · rw [hrun, hp]
      simp [Phase.stage, Stage.next, hsize, hlength]
    · rw [hrun]
      cases hp : p.phase with
      | uninitialized =>
        have hsize : ¬ Arena.SizeOk bytes := fun hsize => hnot ⟨hp, hsize⟩
        simp [Phase.stage, Stage.next, hsize]
      | arenaOnly a => rfl
      | ready h => rfl
  | setHeapStart first =>
    show (p.setHeapStart first).2.phase.stage = _
    rcases p.setHeapStart_cases first with ⟨a, placed, h, hp, hplace, _, hrun⟩ | ⟨e, hnot, hrun⟩
    · rw [hrun, hp]
      simp [Phase.stage, Stage.next, hplace]
    · rw [hrun]
      cases hp : p.phase with
      | uninitialized => rfl
      | ready h => rfl
      | arenaOnly a =>
        cases hplace : Layout.place a.length a.addressable first with
        | ok placed => exact absurd hplace (hnot a placed hp)
        | error e => simp [Phase.stage, Stage.next, hplace]
  | setRoots r => obtain ⟨phase, roots⟩ := p; cases phase <;> rfl
  | allocate tag size => obtain ⟨phase, roots⟩ := p; cases phase <;> rfl
  | withHeap α act => obtain ⟨phase, roots⟩ := p; cases phase <;> rfl
  | blockSize block => obtain ⟨phase, roots⟩ := p; cases phase <;> rfl
  | blockTag block => obtain ⟨phase, roots⟩ := p; cases phase <;> rfl
  | start => obtain ⟨phase, roots⟩ := p; cases phase <;> rfl
  | limit => obtain ⟨phase, roots⟩ := p; cases phase <;> rfl
  | cleanup => obtain ⟨phase, roots⟩ := p; cases phase <;> rfl

/-- Only registering roots and the cleanup change the roots that are registered. -/
theorem roots_perform (c : Call) (p : ProcessHeap) :
    (c.perform p).2.roots = c.nextRoots p.roots := by
  cases c with
  | setup bytes =>
    show (p.setup bytes).2.roots = p.roots
    rcases p.setup_cases bytes with ⟨a, _, _, _, _, hrun⟩ | ⟨e, _, hrun⟩ <;> rw [hrun]
  | setHeapStart first =>
    show (p.setHeapStart first).2.roots = p.roots
    rcases p.setHeapStart_cases first with ⟨a, _, h, _, _, _, hrun⟩ | ⟨e, _, hrun⟩ <;> rw [hrun]
  | allocate tag size => obtain ⟨phase, roots⟩ := p; cases phase <;> rfl
  | withHeap α act => obtain ⟨phase, roots⟩ := p; cases phase <;> rfl
  | _ => rfl

/-- **What is accepted.** A call is accepted just if the machine accepts it. -/
theorem accepted_iff (c : Call) (p : ProcessHeap) :
    c.Accepted (c.perform p).1 ↔ p.phase.stage.Accepts c := by
  cases c with
  | setup bytes =>
    show errorOf (p.setup bytes).1 = none ↔
      p.phase.stage = .uninitialized ∧ ∃ arena, Arena.new bytes = .ok arena
    rcases p.setup_cases bytes with ⟨a, hp, _, hnew, _, hrun⟩ | ⟨e, hnot, hrun⟩
    · rw [hrun, hp]
      exact iff_of_true rfl ⟨rfl, a, hnew⟩
    · rw [hrun]
      refine iff_of_false (fun he => nomatch he) fun ⟨hstage, a, hnew⟩ =>
        hnot ⟨?_, (Arena.new_eq_ok hnew).1⟩
      cases hp : p.phase with
      | uninitialized => rfl
      | arenaOnly a => rw [hp] at hstage; cases hstage
      | ready h => rw [hp] at hstage; cases hstage
  | setHeapStart first =>
    show errorOf (p.setHeapStart first).1 = none ↔ ∃ words h placed,
      p.phase.stage = .arenaOnly words h ∧ Layout.place words h first = .ok placed
    rcases p.setHeapStart_cases first with ⟨a, placed, h, hp, hplace, _, hrun⟩ | ⟨e, hnot, hrun⟩
    · rw [hrun, hp]
      exact iff_of_true rfl ⟨_, _, placed, rfl, hplace⟩
    · rw [hrun]
      refine iff_of_false (fun he => nomatch he) ?_
      rintro ⟨words, h, placed, hstage, hplace⟩
      cases hp : p.phase with
      | uninitialized => rw [hp] at hstage; cases hstage
      | arenaOnly a =>
        rw [hp] at hstage
        cases hstage
        exact hnot a placed hp hplace
      | ready h => rw [hp] at hstage; cases hstage
  | setRoots r => exact iff_of_true rfl trivial
  | cleanup => exact iff_of_true rfl trivial
  | allocate tag size =>
    obtain ⟨phase, roots⟩ := p
    refine Phase.ready_iff (P := fun phase => (allocate tag size).Accepted
      ((allocate tag size).perform ⟨phase, roots⟩).1) (fun hne => hne rfl) (fun _ hne => hne rfl)
      (fun h he => ?_) phase
    -- A heap refuses a request for other reasons only.
    rcases Heap.allocate_error (error?_allocate.1 he) with ⟨heq, _⟩ | ⟨_, heq⟩ <;> cases heq
  | withHeap α act =>
    obtain ⟨phase, roots⟩ := p
    exact Phase.ready_iff (P := fun phase => (withHeap α act).Accepted
      ((withHeap α act).perform ⟨phase, roots⟩).1) nofun nofun (fun _ => rfl) phase
  | blockSize block =>
    obtain ⟨phase, roots⟩ := p
    exact Phase.ready_iff (P := fun phase => (blockSize block).Accepted
      ((blockSize block).perform ⟨phase, roots⟩).1) nofun nofun (fun _ => rfl) phase
  | blockTag block =>
    obtain ⟨phase, roots⟩ := p
    exact Phase.ready_iff (P := fun phase => (blockTag block).Accepted
      ((blockTag block).perform ⟨phase, roots⟩).1) nofun nofun (fun _ => rfl) phase
  | start =>
    obtain ⟨phase, roots⟩ := p
    exact Phase.started_iff (P := fun phase => start.Accepted (start.perform ⟨phase, roots⟩).1)
      nofun (fun _ => rfl) (fun _ => rfl) phase
  | limit =>
    obtain ⟨phase, roots⟩ := p
    exact Phase.started_iff (P := fun phase => limit.Accepted (limit.perform ⟨phase, roots⟩).1)
      nofun (fun _ => rfl) (fun _ => rfl) phase

/-- **What is refused.** A call that returns an error changes nothing. -/
theorem perform_of_error {e : HeapError} (c : Call) (p : ProcessHeap)
    (he : c.error? (c.perform p).1 = some e) (hfatal : e.isFatal = false) :
    (c.perform p).2 = p := by
  cases c with
  | setup bytes =>
    show (p.setup bytes).2 = p
    rcases p.setup_cases bytes with ⟨a, _, _, _, _, hrun⟩ | ⟨_, _, hrun⟩
    · have hnone : errorOf (p.setup bytes).1 = some e := he
      rw [hrun] at hnone
      cases hnone
    · rw [hrun]
  | setHeapStart first =>
    show (p.setHeapStart first).2 = p
    rcases p.setHeapStart_cases first with ⟨a, _, h, _, _, _, hrun⟩ | ⟨_, _, hrun⟩
    · have hnone : errorOf (p.setHeapStart first).1 = some e := he
      rw [hrun] at hnone
      cases hnone
    · rw [hrun]
  | setRoots r => cases he
  | cleanup => cases he
  | allocate tag size =>
    obtain ⟨phase, roots⟩ := p
    cases phase with
    | uninitialized => rfl
    | arenaOnly a => rfl
    | ready h =>
      rcases Heap.allocate_error (error?_allocate.1 he) with ⟨_, hsame⟩ | ⟨free, rfl⟩
      · show ProcessHeap.mk (.ready (h.allocate tag size (roots.getD .unset)).2) roots = _
        rw [hsame]
      · cases hfatal
  | withHeap α act =>
    obtain ⟨phase, roots⟩ := p
    cases phase with
    | uninitialized => rfl
    | arenaOnly a => rfl
    | ready h => cases he
  | blockSize block => rfl
  | blockTag block => rfl
  | start => rfl
  | limit => rfl

end Call

/-! ### Sequences of calls -/

/-- The stage after some calls from the start. -/
def Stage.after (calls : List Call) : Stage := calls.foldl next .uninitialized

/-- The roots registered after some calls from the start. -/
def Call.rootsAfter (calls : List Call) : Option Roots :=
  calls.foldl (fun roots c => c.nextRoots roots) none

namespace ProcessHeap

variable {p p' : ProcessHeap} {calls : List Call} {answers : List ((c : Call) × c.Answer)}

/-- The first of some calls, if the process lives on. -/
theorem run_cons {c : Call} (hrun : p.run (c :: calls) = (answers, some p')) :
    ∃ rest, (c.perform p).2.run calls = (rest, some p') := by
  rw [run] at hrun
  dsimp only at hrun
  split at hrun
  · cases hrun
  · cases hrest : (c.perform p).2.run calls with
    | mk rest left =>
      rw [hrest] at hrun
      cases hrun
      exact ⟨rest, rfl⟩

/-- **Calls decide the stage.** So they do for the roots registered. -/
theorem run_follows (hrun : p.run calls = (answers, some p')) :
    p'.phase.stage = calls.foldl Stage.next p.phase.stage ∧
      p'.roots = calls.foldl (fun roots c => c.nextRoots roots) p.roots := by
  induction calls generalizing p answers with
  | nil =>
    cases hrun
    exact ⟨rfl, rfl⟩
  | cons c calls ih =>
    obtain ⟨rest, hrest⟩ := run_cons hrun
    have hlater := ih hrest
    rw [c.stage_perform, c.roots_perform] at hlater
    exact hlater

/-- Calls in a row are the first ones and then, if the process lives on, the others. -/
theorem run_append (hrun : p.run calls = (answers, some p')) (later : List Call) :
    p.run (calls ++ later) = (answers ++ (p'.run later).1, (p'.run later).2) := by
  induction calls generalizing p answers with
  | nil =>
    cases hrun
    rfl
  | cons c calls ih =>
    rw [run] at hrun
    dsimp only at hrun
    rw [List.cons_append, run]
    dsimp only
    split at hrun
    · cases hrun
    · rename_i hlives
      cases hrest : (c.perform p).2.run calls with
      | mk rest left =>
        rw [hrest] at hrun
        cases hrun
        rw [if_neg hlives, ih hrest]
        rfl

/-- What is known after some calls from the start, with their answers. -/
structure Lifecycle (calls : List Call) (answers : List ((c : Call) × c.Answer))
    (p : ProcessHeap) : Prop where
  stage_eq : p.phase.stage = .after calls
  roots_eq : p.roots = Call.rootsAfter calls
  /-- The next call is accepted just if the stage allows it and its arguments do. -/
  accepted_iff : ∀ c : Call, c.Accepted (c.perform p).1 ↔ (Stage.after calls).Accepts c
  /-- If it returns an error, nothing has changed. -/
  refused : ∀ (c : Call) (e : HeapError), c.error? (c.perform p).1 = some e →
    e.isFatal = false → (c.perform p).2 = p
  /-- A start that passes the check makes the arena a heap. -/
  placed : ∀ (a : Arena) (first : Pointer) (placed : { L : Layout // L.size = a.length }),
    p.phase = .arenaOnly a → Layout.place a.length a.addressable first = .ok placed →
    ∃ h, a.intoHeap first = .ok ⟨placed.val, h⟩ ∧
      p.setHeapStart first = (.ok (), { p with phase := .ready h })
  /-- A request is one to the heap, with the roots registered or with none. -/
  allocate_eq : ∀ {L : Layout} (h : Heap L) (tag : Tag) (size : Nat), p.phase = .ready h →
    p.allocate tag size =
      ((h.allocate tag size ((Call.rootsAfter calls).getD .unset)).1,
        { p with phase := .ready (h.allocate tag size ((Call.rootsAfter calls).getD .unset)).2 })
  /-- What is done with the heap is done to the heap. -/
  withHeap_eq : ∀ {L : Layout} (h : Heap L) (α : Type)
    (act : {L : Layout} → Heap L → α × Heap L), p.phase = .ready h →
    p.withHeap act = (.ok (act h).1, { p with phase := .ready (act h).2 })
  /-- What is asked about a block is asked of the heap. -/
  blockSize_eq : ∀ {L : Layout} (h : Heap L) (block : Pointer), p.phase = .ready h →
    p.blockSize block = .ok (h.blockSize block)
  blockTag_eq : ∀ {L : Layout} (h : Heap L) (block : Pointer), p.phase = .ready h →
    p.blockTag block = .ok (h.blockTag block)
  /-- The bounds are those of the arena, whose words are all in the heap's layout. -/
  start_eq : ∀ {L : Layout} (h : Heap L), p.phase = .ready h → p.start = .ok .base
  limit_eq : ∀ {L : Layout} (h : Heap L), p.phase = .ready h → p.limit = .ok (.ofIndex L.size)
  /-- After a cleanup all goes on as from the start. -/
  restart : ∀ later : List Call, empty.run (calls ++ .cleanup :: later) =
    (answers ++ ⟨.cleanup, ()⟩ :: (empty.run later).1, (empty.run later).2)

/-- **The lifecycle.** Every sequence of calls from the start obeys the three-stage machine. -/
theorem lifecycle (hrun : empty.run calls = (answers, some p)) : Lifecycle calls answers p := by
  obtain ⟨hstage, hroots⟩ := run_follows hrun
  refine ⟨hstage, hroots, fun c => ?accepted_iff, fun c e => c.perform_of_error p, ?placed,
    ?allocate_eq, ?withHeap_eq, ?blockSize_eq, ?blockTag_eq, ?start_eq, ?limit_eq, ?restart⟩
  case accepted_iff =>
    rw [c.accepted_iff, hstage]
    rfl
  case placed =>
    intro a first placed hp hplace
    rcases p.setHeapStart_cases first with ⟨b, placed', h, hp', hplace', hinto, hset⟩ |
      ⟨e, hnot, _⟩
    · rw [hp] at hp'
      cases hp'
      rw [hplace] at hplace'
      cases hplace'
      exact ⟨h, hinto, hset⟩
    · exact absurd hplace (hnot a placed hp)
  case allocate_eq =>
    intro L h tag size hp
    have hroots' : p.roots = Call.rootsAfter calls := hroots
    rw [← hroots']
    obtain ⟨phase, roots⟩ := p
    cases hp
    rfl
  case withHeap_eq =>
    intro L h α act hp
    obtain ⟨phase, roots⟩ := p
    cases hp
    rfl
  case blockSize_eq =>
    intro L h block hp
    rw [blockSize, hp]
  case blockTag_eq =>
    intro L h block hp
    rw [blockTag, hp]
  case start_eq =>
    intro L h hp
    rw [start, length?, hp]
  case limit_eq =>
    intro L h hp
    rw [limit, length?, hp]
  case restart =>
    intro later
    rw [run_append hrun]
    rfl

/-- The law after an arena was made, a start behind it refused, and another one taken. -/
theorem lifecycle_small : ∃ answers p,
    empty.run [.setup 64, .setHeapStart (.ofIndex 16), .setHeapStart (.ofIndex 1),
      .setRoots ⟨.ofIndex 3, .base, .base⟩] = (answers, some p) ∧
    (∃ L, p.phase.stage = .ready L) ∧
    Lifecycle [.setup 64, .setHeapStart (.ofIndex 16), .setHeapStart (.ofIndex 1),
      .setRoots ⟨.ofIndex 3, .base, .base⟩] answers p := by
  refine ⟨_, _, rfl, ⟨_, rfl⟩, lifecycle rfl⟩

end ProcessHeap

end ArenaHeap
