import ArenaHeap.HeapError

namespace ArenaHeap

/-!
# The arena

One region of zeroed words whose size is fixed when it is made. Every byte offset inside it fits
a virtual address, so indices stay below `2 ^ 30`.

An arena may be large and a heap in it be refused, so words are stored only as far as they were
written; those behind are zero. `Arena.words` is the view that says what the arena holds, and
`Arena.words_write` what a write does to it.
-/

/-- A region of words. -/
structure Arena where
  /-- The number of words. -/
  length : Nat
  /-- The words up to the last one that was written; all others are zero. -/
  written : Array Word
  size_written_le : written.size ≤ length
  nonempty : 0 < length
  addressable : length < 1 <<< 30

namespace Arena

/-- The sizes in bytes that an arena can have: whole words, at least one, all addressable. -/
def SizeOk (bytes : Nat) : Prop := bytes ≠ 0 ∧ bytes % Word.bytes = 0 ∧ bytes < 1 <<< 32

instance (bytes : Nat) : Decidable (SizeOk bytes) := inferInstanceAs (Decidable (_ ∧ _))

theorem SizeOk.length_pos {bytes : Nat} (h : SizeOk bytes) : 0 < bytes / Word.bytes := by
  obtain ⟨_, _, _⟩ := h
  simp only [Word.bytes] at *
  omega

theorem SizeOk.length_lt {bytes : Nat} (h : SizeOk bytes) : bytes / Word.bytes < 1 <<< 30 := by
  obtain ⟨_, _, _⟩ := h
  simp only [Word.bytes] at *
  omega

/-- An arena of `bytes` bytes, all zero. -/
def new (bytes : Nat) : Except HeapError Arena :=
  if h : SizeOk bytes then
    .ok {
      length := bytes / Word.bytes
      written := #[]
      size_written_le := Nat.zero_le _
      nonempty := h.length_pos
      addressable := h.length_lt }
  else
    .error (.invalidArenaSize bytes)

/-- An arena is made of any size that it can have, and of no other. -/
theorem new_eq_ok {bytes : Nat} {a : Arena} (ha : new bytes = .ok a) :
    SizeOk bytes ∧ a.length = bytes / Word.bytes := by
  unfold new at ha
  split at ha
  case isTrue h =>
    cases ha
    exact ⟨h, rfl⟩
  case isFalse => cases ha

theorem new_of_not_sizeOk {bytes : Nat} (h : ¬ SizeOk bytes) :
    new bytes = .error (.invalidArenaSize bytes) :=
  dif_neg h

/-- The number of bytes. -/
def sizeBytes (a : Arena) : Nat := a.length * Word.bytes

/-- One past the last word. -/
def limit (a : Arena) : Pointer := .ofIndex a.length

/-- All words, from the base on. -/
def words (a : Arena) : Array Word := a.written ++ Array.replicate (a.length - a.written.size) 0

theorem size_words (a : Arena) : a.words.size = a.length := by
  have := a.size_written_le
  simp only [words, Array.size_append, Array.size_replicate]
  omega

theorem getElem?_words (a : Arena) (j : Nat) :
    a.words[j]? = if j < a.length then some (a.written[j]?.getD 0) else none := by
  have hle := a.size_written_le
  simp only [words, Array.getElem?_append, Array.getElem?_replicate]
  by_cases hw : j < a.written.size
  · simp [hw, Nat.lt_of_lt_of_le hw hle]
  · have hsub : j - a.written.size < a.length - a.written.size ↔ j < a.length := by omega
    simp [hw, hsub]

/-- Overwrites the word at an index, if there is one. -/
def write (a : Arena) (index : Nat) (value : Word) : Arena :=
  if h : index < a.length then
    { a with
      written :=
        (a.written ++ Array.replicate (index + 1 - a.written.size) 0).setIfInBounds index value
      size_written_le := by
        have := a.size_written_le
        simp only [Array.size_setIfInBounds, Array.size_append, Array.size_replicate]
        omega }
  else a

theorem words_write (a : Arena) (index : Nat) (value : Word) :
    (a.write index value).words = a.words.setIfInBounds index value := by
  apply Array.ext_getElem?
  intro j
  rw [Array.getElem?_setIfInBounds, size_words, getElem?_words, getElem?_words, write]
  by_cases hi : index < a.length
  · by_cases hj : index = j
    · subst hj
      have : index < a.written.size + (index + 1 - a.written.size) := by omega
      simp [hi, this]
    · simp only [hi, dite_true, hj, if_false, Array.getElem?_setIfInBounds, Array.getElem?_append,
        Array.getElem?_replicate]
      by_cases hw : j < a.written.size
      · simp [hw]
      · by_cases hr : j - a.written.size < index + 1 - a.written.size <;> simp [hw, hr]
  · by_cases hj : index = j
    · subst hj
      simp [hi]
    · simp [hi, hj]

end Arena

end ArenaHeap
