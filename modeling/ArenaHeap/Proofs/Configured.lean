import ArenaHeap.Config.Basic
import ArenaHeap.Proofs.Placement

namespace ArenaHeap

/-!
# Heaps from a configuration

There are two ways to a heap. One checks the sizes of a configuration, in bytes, before it takes any
memory; the other takes an arena and places the heap at an address in it, which is checked there.
They come to the same, in what they refuse and in what they say of it.

* `Heap.direct` — the way by an address.
* `Config.Placeable` — the configurations that there is a heap for.
* `Heap.ofConfig_eq_direct`, `Heap.ofConfig_eq_ok_iff` — the two ways agree, and when they succeed.
-/

namespace Pointer

/-- A pointer so many bytes behind the base, wherever the base is: addresses wrap around, and so do
    distances. -/
theorem ofAddress_add (base bytes : UInt64) : ofAddress base (base + bytes) = ⟨bytes⟩ := by
  rw [ofAddress, UInt64.add_comm, UInt64.add_sub_cancel]

/-- Whole words can be counted in words. -/
theorem ofIndex_div {bytes : UInt64} (h : bytes.toNat % Word.bytes = 0) :
    ofIndex (bytes.toNat / Word.bytes) = ⟨bytes⟩ := by
  rw [ofIndex, Nat.div_mul_cancel (Nat.dvd_of_mod_eq_zero h), UInt64.ofNat_toNat]

end Pointer

/-! ### The way by an address -/

/-- The heap in an arena that lies at the address `base`, from so many bytes behind it on. Addresses
    wrap around at `2 ^ 64`. -/
def Heap.direct (base arenaBytes reservedBytes : UInt64) :
    Except HeapError ((L : Layout) × Heap L) := do
  let arena ← Arena.new arenaBytes.toNat
  arena.intoHeap (.ofAddress base (base + reservedBytes))

/-! ### What a configuration is checked for -/

namespace Config

variable {c : Config}

/-- The first check: an arena of whole words, and of some. -/
def ArenaOk (c : Config) : Prop := c.arenaBytes ≠ 0 ∧ c.arenaBytes.toNat % Word.bytes = 0

/-- The second check: whole words are reserved, and not all. -/
def ReservedOk (c : Config) : Prop :=
  c.reservedBytes.toNat % Word.bytes = 0 ∧ c.reservedBytes < c.arenaBytes

theorem validate_of_not_arenaOk (h : ¬ c.ArenaOk) :
    c.validate = .error (.invalidArenaSize c.arenaBytes.toNat) := by
  rw [ArenaOk, not_and_or, not_ne_iff] at h
  exact if_pos h

theorem validate_of_not_reservedOk (ha : c.ArenaOk) (hr : ¬ c.ReservedOk) :
    c.validate = .error (.invalidHeapStart c.reservedBytes.toInt64.toInt) := by
  rw [ArenaOk, ← not_ne_iff, ← not_or] at ha
  rw [ReservedOk, not_and_or, UInt64.not_lt] at hr
  exact (if_neg ha).trans (if_pos hr)

theorem validate_of_ok (ha : c.ArenaOk) (hr : c.ReservedOk) : c.validate = .ok () := by
  rw [ArenaOk, ← not_ne_iff, ← not_or] at ha
  rw [ReservedOk, ← not_ne_iff, ← UInt64.not_le, ← not_or] at hr
  exact (if_neg ha).trans (if_neg hr)

/-- A configuration passes just if it passes both checks. -/
theorem validate_eq_ok_iff : c.validate = .ok () ↔ c.ArenaOk ∧ c.ReservedOk := by
  refine ⟨fun h => ?_, fun ⟨ha, hr⟩ => validate_of_ok ha hr⟩
  by_cases ha : c.ArenaOk
  · by_cases hr : c.ReservedOk
    · exact ⟨ha, hr⟩
    · cases h.symm.trans (validate_of_not_reservedOk ha hr)
  · cases h.symm.trans (validate_of_not_arenaOk ha)

/-- The words that a configuration leaves to bitmap and heap. -/
def rest (c : Config) : Nat := (c.arenaBytes.toNat - c.reservedBytes.toNat) / Word.bytes

/-- A configuration that there is a heap for: it passes both checks, addresses reach all of the
    arena, and what is left has room for a block and no more words than a header can record. -/
def Placeable (c : Config) : Prop :=
  (c.arenaBytes ≠ 0 ∧ c.arenaBytes.toNat % Word.bytes = 0 ∧ c.arenaBytes.toNat < 1 <<< 32) ∧
  (c.reservedBytes.toNat % Word.bytes = 0 ∧ c.reservedBytes < c.arenaBytes) ∧
  3 ≤ c.rest ∧ c.rest - c.rest ⌈/⌉ (Word.bits + 1) ≤ 1 <<< 24

instance (c : Config) : Decidable c.Placeable := inferInstanceAs (Decidable (_ ∧ _ ∧ _))

/-- An arena of a size that addresses reach can be made just if the first check is passed. -/
theorem sizeOk_iff : Arena.SizeOk c.arenaBytes.toNat ↔
    c.ArenaOk ∧ c.arenaBytes.toNat < 1 <<< 32 := by
  rw [Arena.SizeOk, ArenaOk, and_assoc, Ne, Ne, ← UInt64.toNat_inj, UInt64.toNat_zero]

end Config

/-! ### What a checked configuration comes to -/

theorem Layout.bitmapFor_eq_ceilDiv {rest : Nat} (h : 0 < rest) :
    bitmapFor rest = rest ⌈/⌉ (Word.bits + 1) := by
  rw [Nat.ceilDiv_eq_add_pred_div, bitmapFor, Word.bits]
  omega

namespace Arena

variable {a : Arena} {start : Pointer} {reserved : Nat}

/-- At a word of an arena a heap is placed just if the words from there on suffice for a block, and
    are no more than a header can record. -/
theorem intoHeap_eq_ok_iff (hi : start.index? a.length = some reserved) :
    (∃ placed, a.intoHeap start = .ok placed) ↔
      2 ≤ Layout.heapFor a.length reserved ∧ Layout.heapFor a.length reserved ≤ 1 <<< 24 := by
  rcases intoHeap_of_index? hi with ⟨hs, hrun⟩ | ⟨hl, hrun⟩ | ⟨hs, hl, L, h, hrun, _⟩
  · rw [hrun]
    exact iff_of_false nofun (by omega)
  · rw [hrun]
    exact iff_of_false nofun (by omega)
  · exact iff_of_true ⟨_, hrun⟩ ⟨hs, hl⟩

/-- At a word of an arena it is not the start that is wrong. -/
theorem intoHeap_ne_invalidHeapStart (hi : start.index? a.length = some reserved) (distance : Int) :
    a.intoHeap start ≠ .error (.invalidHeapStart distance) := by
  rcases intoHeap_of_index? hi with ⟨_, hrun⟩ | ⟨_, hrun⟩ | ⟨_, _, _, _, hrun, _⟩ <;>
    rw [hrun] <;> nofun

end Arena

namespace Config

variable {c : Config} {a : Arena}

/-- The start of the heap in an arena of the configured size. -/
def start (c : Config) : Pointer := .ofIndex (c.reservedBytes.toNat / Word.bytes)

/-- The words in front of a checked start are reserved. -/
theorem index?_start (ha : c.ArenaOk) (hr : c.ReservedOk)
    (hnew : Arena.new c.arenaBytes.toNat = .ok a) :
    c.start.index? a.length = some (c.reservedBytes.toNat / Word.bytes) := by
  refine Pointer.index?_ofIndex ?_ a.addressable
  obtain ⟨_, hwhole⟩ := ha
  obtain ⟨_, hlt⟩ := hr
  rw [UInt64.lt_iff_toNat_lt] at hlt
  rw [(Arena.new_eq_ok hnew).2]
  rw [Word.bytes] at *
  omega

/-- Behind a checked start the rest of the arena is shared between bitmap and heap. -/
theorem heapFor_start (ha : c.ArenaOk) (hr : c.ReservedOk)
    (hnew : Arena.new c.arenaBytes.toNat = .ok a) :
    Layout.heapFor a.length (c.reservedBytes.toNat / Word.bytes) =
      c.rest - c.rest ⌈/⌉ (Word.bits + 1) := by
  have hrest : a.length - c.reservedBytes.toNat / Word.bytes = c.rest ∧ 0 < c.rest := by
    obtain ⟨_, hwhole⟩ := ha
    obtain ⟨haligned, hlt⟩ := hr
    rw [UInt64.lt_iff_toNat_lt] at hlt
    rw [(Arena.new_eq_ok hnew).2, rest]
    rw [Word.bytes] at *
    omega
  rw [Layout.heapFor, hrest.1, Layout.bitmapFor_eq_ceilDiv hrest.2]

end Config

/-! ### The two ways agree -/

namespace Heap

variable {c : Config} {a : Arena}

/-- A checked configuration starts the heap where it says. -/
theorem ofConfig_of_new (ha : c.ArenaOk) (hr : c.ReservedOk)
    (hnew : Arena.new c.arenaBytes.toNat = .ok a) : ofConfig c = a.intoHeap c.start := by
  rw [ofConfig, Config.validate_of_ok ha hr, hnew]
  rfl

/-- That is where the address is. -/
theorem ofConfig_of_ok (ha : c.ArenaOk) (hr : c.ReservedOk) (base : UInt64) :
    ofConfig c = direct base c.arenaBytes c.reservedBytes := by
  rw [ofConfig, Config.validate_of_ok ha hr, Pointer.ofIndex_div hr.1, direct,
    Pointer.ofAddress_add]
  rfl

/-- An address in front of the arena, between two words or behind the end is refused by the arena in
    the same words. -/
theorem direct_of_not_reservedOk (hsize : Arena.SizeOk c.arenaBytes.toNat) (hr : ¬ c.ReservedOk)
    (base : UInt64) : direct base c.arenaBytes c.reservedBytes =
      .error (.invalidHeapStart c.reservedBytes.toInt64.toInt) := by
  obtain ⟨a, hnew⟩ : ∃ a, Arena.new c.arenaBytes.toNat = .ok a := ⟨_, dif_pos hsize⟩
  have hout : (⟨c.reservedBytes⟩ : Pointer).index? a.length = none := by
    rw [Config.ReservedOk, UInt64.lt_iff_toNat_lt] at hr
    refine if_neg ?_
    rw [(Arena.new_eq_ok hnew).2, Nat.div_mul_cancel (Nat.dvd_of_mod_eq_zero hsize.2.1)]
    exact hr
  rw [direct, hnew, Pointer.ofAddress_add]
  exact Arena.intoHeap_of_outside hout

theorem direct_of_not_sizeOk (hsize : ¬ Arena.SizeOk c.arenaBytes.toNat) (base : UInt64) :
    direct base c.arenaBytes c.reservedBytes = .error (.invalidArenaSize c.arenaBytes.toNat) := by
  rw [direct, Arena.new_of_not_sizeOk hsize]
  rfl

/-- If addresses reach all of the arena, the two ways come to the same. -/
theorem ofConfig_eq_direct (h : c.arenaBytes.toNat < 1 <<< 32) (base : UInt64) :
    ofConfig c = direct base c.arenaBytes c.reservedBytes := by
  by_cases ha : c.ArenaOk
  · by_cases hr : c.ReservedOk
    · exact ofConfig_of_ok ha hr base
    · rw [ofConfig, Config.validate_of_not_reservedOk ha hr,
        direct_of_not_reservedOk (Config.sizeOk_iff.2 ⟨ha, h⟩) hr]
      rfl
  · rw [ofConfig, Config.validate_of_not_arenaOk ha,
      direct_of_not_sizeOk (fun hsize => ha (Config.sizeOk_iff.1 hsize).1)]
    rfl

/-- Just the placeable configurations have a heap. -/
theorem ofConfig_eq_ok_iff : (∃ placed, ofConfig c = .ok placed) ↔ c.Placeable := by
  by_cases ha : c.ArenaOk
  case neg =>
    rw [ofConfig, Config.validate_of_not_arenaOk ha]
    exact iff_of_false nofun fun ⟨⟨hne, hwhole, _⟩, _⟩ => ha ⟨hne, hwhole⟩
  by_cases hr : c.ReservedOk
  case neg =>
    rw [ofConfig, Config.validate_of_not_reservedOk ha hr]
    exact iff_of_false nofun fun ⟨_, hr', _⟩ => hr hr'
  by_cases hsize : Arena.SizeOk c.arenaBytes.toNat
  case neg =>
    rw [ofConfig, Config.validate_of_ok ha hr, Arena.new_of_not_sizeOk hsize]
    exact iff_of_false nofun fun ⟨hsize', _⟩ => hsize (Config.sizeOk_iff.2 ⟨ha, hsize'.2.2⟩)
  obtain ⟨a, hnew⟩ : ∃ a, Arena.new c.arenaBytes.toNat = .ok a := ⟨_, dif_pos hsize⟩
  have hlt := (Config.sizeOk_iff.1 hsize).2
  have henough : 2 ≤ c.rest - c.rest ⌈/⌉ (Word.bits + 1) ↔ 3 ≤ c.rest := by
    rw [Nat.ceilDiv_eq_add_pred_div, Word.bits]
    omega
  rw [ofConfig_of_new ha hr hnew, Arena.intoHeap_eq_ok_iff (Config.index?_start ha hr hnew),
    Config.heapFor_start ha hr hnew, henough]
  exact ⟨fun hrest => ⟨⟨ha.1, ha.2, hlt⟩, hr, hrest⟩, fun h => h.2.2⟩

/-- **The two ways to a heap agree.** From sizes that addresses reach, the configuration gives what
    the arena gives that is asked for a heap at the address so many bytes behind its base, be it a
    heap or an error; from larger ones both give an error. There is a heap just if the arena and its
    reserved part are whole words, addresses reach the arena, the reserved part leaves something,
    and what it leaves has room for a block and fits a header. The arena never refuses the start of
    a configuration that passed its checks. -/
theorem ofConfig_exact (c : Config) (base : UInt64) :
    (c.arenaBytes.toNat < 1 <<< 32 →
      ofConfig c = direct base c.arenaBytes c.reservedBytes) ∧
    (1 <<< 32 ≤ c.arenaBytes.toNat → (∃ e, ofConfig c = .error e) ∧
      ∃ e, direct base c.arenaBytes c.reservedBytes = .error e) ∧
    ((∃ placed, ofConfig c = .ok placed) ↔ c.Placeable) ∧
    (c.validate = .ok () → ∀ arena, Arena.new c.arenaBytes.toNat = .ok arena → ∀ distance,
      arena.intoHeap (.ofIndex (c.reservedBytes.toNat / Word.bytes)) ≠
        .error (.invalidHeapStart distance)) := by
  refine ⟨fun h => ofConfig_eq_direct h base, fun h => ?large, ofConfig_eq_ok_iff,
    fun hvalid a hnew distance => ?start⟩
  case large =>
    have hsize : ¬ Arena.SizeOk c.arenaBytes.toNat := fun ⟨_, _, hlt⟩ => absurd hlt (by omega)
    refine ⟨?_, _, direct_of_not_sizeOk hsize base⟩
    cases hrun : ofConfig c with
    | error e => exact ⟨e, rfl⟩
    | ok placed => exact absurd (ofConfig_eq_ok_iff.1 ⟨placed, hrun⟩).1.2.2 (by omega)
  case start =>
    obtain ⟨ha, hr⟩ := Config.validate_eq_ok_iff.1 hvalid
    exact Arena.intoHeap_ne_invalidHeapStart (Config.index?_start ha hr hnew) distance

/-- Sixty-four bytes of which four are reserved make a heap. With all but four of `2 ^ 64` bytes
    reserved the start lies four bytes in front of the arena, and both ways say so. -/
theorem ofConfig_exact_small : (∃ placed, ofConfig ⟨64, 4⟩ = .ok placed) ∧
    ofConfig ⟨64, -4⟩ = .error (.invalidHeapStart (-4)) ∧
    direct 4096 64 (-4) = .error (.invalidHeapStart (-4)) := by
  have hrun : ofConfig ⟨64, -4⟩ = .error (.invalidHeapStart (-4)) := rfl
  obtain ⟨_, _, hplaceable, _⟩ := ofConfig_exact ⟨64, 4⟩ 4096
  obtain ⟨hagree, _⟩ := ofConfig_exact ⟨64, -4⟩ 4096
  exact ⟨hplaceable.2 (by decide), hrun, (hagree (by decide)).symm.trans hrun⟩

end Heap

end ArenaHeap
