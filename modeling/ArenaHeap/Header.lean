import ArenaHeap.Word

namespace ArenaHeap

/-!
# Block headers

One word in front of a payload records the block's size, in the upper 24 bits, and its tag, in
the lowest 8. `Header.size_ofSize` and `Header.tag_ofSize` read back what `Header.ofSize` wrote,
for every size up to `Header.maxSize`.
-/

/-- A classification of blocks that the caller chooses. -/
abbrev Tag := UInt8

/-- The tag of free blocks, which no request may use. -/
def Tag.free : Tag := 255

namespace Header

/-- Words that a header takes. -/
def words : Nat := 1

/-- The smallest payload: a free block keeps its link there. -/
def minSize : Nat := 1

/-- The largest payload that a header can record. -/
def maxSize : Nat := 1 <<< 24 - 1

/-- The header of a block; the upper eight bits of `size` are lost. -/
def pack (tag : Tag) (size : Word) : Word := (size <<< 8) ||| tag.toUInt32

/-- The header of a block whose size is counted by a natural number. -/
def ofSize (tag : Tag) (size : Nat) : Word := pack tag (UInt32.ofNat size)

/-- The tag in a header. -/
def tag (header : Word) : Tag := header.toUInt8

/-- The payload size in a header. -/
def size (header : Word) : Word := header >>> 8

/-- Any word read as a header records a size within the limit. -/
theorem toNat_size_le (header : Word) : (size header).toNat ≤ maxSize := by
  have := header.toNat_lt
  simp only [size, maxSize, UInt32.toNat_shiftRight, Nat.shiftRight_eq_div_pow]
  simp
  omega

/-- Below the limit the two parts of a header do not overlap. -/
theorem toNat_ofSize (t : Tag) {n : Nat} (h : n ≤ maxSize) :
    (ofSize t n).toNat = n * 256 + t.toNat := by
  have ht := t.toNat_lt
  rw [maxSize] at h
  have hn : (UInt32.ofNat n <<< 8).toNat = n <<< 8 := by
    simp only [UInt32.toNat_shiftLeft, UInt32.toNat_ofNat', Nat.shiftLeft_eq]
    simp
    omega
  rw [ofSize, pack, UInt32.toNat_or, hn, UInt8.toNat_toUInt32,
    ← Nat.shiftLeft_add_eq_or_of_lt (by simpa using ht), Nat.shiftLeft_eq]

theorem size_ofSize (t : Tag) {n : Nat} (h : n ≤ maxSize) : (size (ofSize t n)).toNat = n := by
  have ht := t.toNat_lt
  simp only [size, UInt32.toNat_shiftRight, toNat_ofSize t h, Nat.shiftRight_eq_div_pow]
  simp
  omega

theorem tag_ofSize (t : Tag) {n : Nat} (h : n ≤ maxSize) : tag (ofSize t n) = t := by
  have ht := t.toNat_lt
  apply UInt8.toNat_inj.1
  simp only [tag, UInt32.toNat_toUInt8, toNat_ofSize t h]
  omega

end Header

/-- The payload size that a request is served with: at least `Header.minSize`. -/
def requestSize (size : Nat) : Nat := max size Header.minSize

end ArenaHeap
