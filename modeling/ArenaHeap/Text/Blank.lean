namespace ArenaHeap.Text

/-!
# White space

The characters with the property `White_Space` of Unicode, and the trimming of text by them. The
main statements are `isBlank_of_isWhitespace`, that white space in ASCII is among them, and
`eq_space_of_mem_squeeze`, that the only white space left in squeezed text is the space.
-/

/-- Whether a character has the property `White_Space`. -/
def isBlank (c : Char) : Bool :=
  let n := c.toNat
  (0x09 ≤ n && n ≤ 0x0D) || n == 0x20 || n == 0x85 || n == 0xA0 || n == 0x1680 ||
    (0x2000 ≤ n && n ≤ 0x200A) || n == 0x2028 || n == 0x2029 || n == 0x202F || n == 0x205F ||
    n == 0x3000

/-- Text without the white space at both ends. -/
def trim (cs : List Char) : List Char :=
  ((cs.dropWhile isBlank).reverse.dropWhile isBlank).reverse

/-- Text in which each run of white space is one space. -/
def joinBlanks : List Char → List Char
  | [] => []
  | c :: cs =>
    if isBlank c then
      match joinBlanks cs with
      | ' ' :: rest => ' ' :: rest
      | rest => ' ' :: rest
    else c :: joinBlanks cs

/-- Text with one space between its words and none at its ends. -/
def squeeze (text : String) : String := String.ofList (trim (joinBlanks text.toList))

/-! ### Characters of one kind in front -/

section Front

variable {p : Char → Bool} {front rest : List Char}

theorem dropWhile_front (hfront : ∀ c ∈ front, p c = true) (hrest : ∀ c ∈ rest.head?, p c = false) :
    (front ++ rest).dropWhile p = rest := by
  rw [List.dropWhile_append_of_pos hfront]
  cases rest with
  | nil => rfl
  | cons c rest => exact List.dropWhile_cons_of_neg (by simp [hrest c rfl])

theorem takeWhile_front (hfront : ∀ c ∈ front, p c = true) (hrest : ∀ c ∈ rest.head?, p c = false) :
    (front ++ rest).takeWhile p = front := by
  rw [List.takeWhile_append_of_pos hfront]
  cases rest with
  | nil => exact List.append_nil front
  | cons c rest => rw [List.takeWhile_cons_of_neg (by simp [hrest c rfl]), List.append_nil]

/-- What begins with characters of one kind, if with any, and goes on with one, begins with one. -/
theorem head?_front (hfront : ∀ c ∈ front, p c = true) (hrest : ∀ c ∈ rest.head?, p c = true) :
    ∀ c ∈ (front ++ rest).head?, p c = true := by
  cases front with
  | nil => exact hrest
  | cons c front =>
    intro d hd
    cases hd
    exact hfront c List.mem_cons_self

end Front

/-! ### White space -/

/-- White space among the ASCII characters is white space. -/
theorem isBlank_of_isWhitespace {c : Char} (h : c.isWhitespace = true) : isBlank c = true := by
  simp only [Char.isWhitespace, Bool.or_eq_true, decide_eq_true_eq] at h
  rcases h with ((h | h) | h) | h <;> subst h <;> decide

/-- Trimmed text has only characters of the text. -/
theorem mem_of_mem_trim {c : Char} {cs : List Char} (h : c ∈ trim cs) : c ∈ cs := by
  have inner := (List.dropWhile_sublist isBlank).subset (List.mem_reverse.1 h)
  exact (List.dropWhile_sublist isBlank).subset (List.mem_reverse.1 inner)

/-- Joined white space is the space. -/
theorem eq_space_of_mem_joinBlanks {c : Char} {cs : List Char} (h : c ∈ joinBlanks cs)
    (blank : isBlank c = true) : c = ' ' := by
  induction cs with
  | nil => simp [joinBlanks] at h
  | cons d cs ih =>
    rw [joinBlanks] at h
    split at h
    · split at h
      · rename_i rest join
        exact ih (join ▸ h)
      · rcases List.mem_cons.1 h with rfl | h
        · rfl
        · exact ih h
    · rename_i visible
      rcases List.mem_cons.1 h with rfl | h
      · exact absurd blank visible
      · exact ih h

/-- Squeezed text has no white space but the space. -/
theorem eq_space_of_mem_squeeze {c : Char} {text : String} (h : c ∈ (squeeze text).toList)
    (blank : isBlank c = true) : c = ' ' := by
  rw [squeeze, String.toList_ofList] at h
  exact eq_space_of_mem_joinBlanks (mem_of_mem_trim h) blank

end ArenaHeap.Text
