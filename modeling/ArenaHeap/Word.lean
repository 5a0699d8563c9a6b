namespace ArenaHeap

/-!
# Words, virtual addresses and pointers

The arena is an array of 32-bit words. A place in it has three names:

* its *index*, a `Nat`, counted in words from the arena's base;
* its *virtual address* `VAddr`, the byte offset from the base, which fits a word and is what
  payload words hold to refer to a block;
* a `Pointer`, the byte offset modulo `2 ^ 64`, which may also lie outside the arena.

`VAddr.index_ofIndex` says that indices below `2 ^ 30` survive the passage through an address.
-/

/-- A machine word of the arena. -/
abbrev Word := UInt32

/-- A byte offset from the arena's base, as a word can hold it. -/
abbrev VAddr := Word

namespace Word

/-- Bytes in a word. -/
def bytes : Nat := 4

/-- Bits in a word, hence heap words that one bitmap word covers. -/
def bits : Nat := 32

end Word

namespace VAddr

/-- The address that stands for "no block"; no block lies there, since the bitmap lies in
    front of the heap. -/
def null : VAddr := 0

/-- The address of the word at an index, modulo `2 ^ 32`. -/
def ofIndex (index : Nat) : VAddr := UInt32.ofNat (index * Word.bytes)

/-- The index of the word that an address falls into. -/
def index (v : VAddr) : Nat := v.toNat / Word.bytes

/-- An address of a whole word; the others are plain scalars to the collector. -/
def Aligned (v : VAddr) : Prop := v.toNat % Word.bytes = 0

instance (v : VAddr) : Decidable v.Aligned := inferInstanceAs (Decidable (_ = _))

theorem toNat_ofIndex {i : Nat} (h : i < 1 <<< 30) : (ofIndex i).toNat = i * 4 := by
  simp only [ofIndex, Word.bytes, UInt32.toNat_ofNat']
  omega

theorem index_ofIndex {i : Nat} (h : i < 1 <<< 30) : (ofIndex i).index = i := by
  rw [index, toNat_ofIndex h, Word.bytes]
  omega

theorem aligned_ofIndex {i : Nat} (h : i < 1 <<< 30) : (ofIndex i).Aligned := by
  rw [Aligned, toNat_ofIndex h, Word.bytes]
  omega

end VAddr

/-- A place as its distance in bytes from the arena's base, with wrap-around at `2 ^ 64`. -/
structure Pointer where
  /-- The distance, without a sign. -/
  offset : UInt64
deriving DecidableEq, Repr, Inhabited

namespace Pointer

/-- The arena's base, which also stands for an unset root. -/
def base : Pointer := ⟨0⟩

/-- The pointer to the word at an index. -/
def ofIndex (index : Nat) : Pointer := ⟨UInt64.ofNat (index * Word.bytes)⟩

/-- The pointer that a virtual address names. -/
def ofVAddr (v : VAddr) : Pointer := ⟨v.toUInt64⟩

/-- The pointer at a signed distance from the base. -/
def ofInt (distance : Int) : Pointer := ⟨(Int64.ofInt distance).toUInt64⟩

/-- The distance from the base, read as a signed number. -/
def toInt (p : Pointer) : Int := p.offset.toInt64.toInt

/-- The distance from the base cut to a word. -/
def vaddr (p : Pointer) : VAddr := p.offset.toUInt32

/-- The index of the word that a pointer names in an arena of `words` words, if it names one. -/
def index? (p : Pointer) (words : Nat) : Option Nat :=
  if p.offset.toNat % Word.bytes = 0 ∧ p.offset.toNat < words * Word.bytes then
    some (p.offset.toNat / Word.bytes)
  else
    none

/-- The index that a pointer names is one of the arena. -/
theorem lt_of_index? {p : Pointer} {words i : Nat} (hi : p.index? words = some i) :
    i < words := by
  unfold index? at hi
  split at hi
  · rw [Word.bytes, Option.some.injEq] at *
    omega
  · cases hi

end Pointer

end ArenaHeap
