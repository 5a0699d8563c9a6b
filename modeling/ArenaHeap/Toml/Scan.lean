namespace ArenaHeap.Toml

/-!
# Blanks, comments and line ends

The pieces between the tokens of a TOML document. Readers take the characters that are left and
return those behind what they read; `none` means that the document is not valid.
-/

/-- White space within a line. -/
def isBlank (c : Char) : Bool := c == ' ' || c == '\t'

/-- A character that text and comments may hold as it is: no control character but the tab. -/
def isText (c : Char) : Bool := c == '\t' || (0x20 ≤ c.val && c.val != 0x7F)

/-- Passes over white space within a line. -/
def skipBlanks (cs : List Char) : List Char := cs.dropWhile isBlank

/-- Passes over a line break. -/
def newline? : List Char → Option (List Char)
  | '\n' :: cs => some cs
  | '\r' :: '\n' :: cs => some cs
  | _ => none

/-- Passes over a comment, if one starts here. -/
def skipComment : List Char → List Char
  | '#' :: cs => cs.dropWhile isText
  | cs => cs

/-- Passes over the end of a line, or stays at the end of the document. -/
def lineEnd? : List Char → Option (List Char)
  | [] => some []
  | cs => newline? cs

/-- Passes over what may follow a statement on its line. -/
def trailing? (cs : List Char) : Option (List Char) := lineEnd? (skipComment (skipBlanks cs))

/-- The value of a hexadecimal digit. -/
def hexDigit? (c : Char) : Option Nat :=
  if '0' ≤ c ∧ c ≤ '9' then some (c.toNat - '0'.toNat)
  else if 'a' ≤ c ∧ c ≤ 'f' then some (c.toNat - 'a'.toNat + 10)
  else if 'A' ≤ c ∧ c ≤ 'F' then some (c.toNat - 'A'.toNat + 10)
  else none

/-- Passes over white space, comments and line breaks between the items of an array. -/
def skipFiller : List Char → List Char
  | '#' :: cs => skipFiller (cs.dropWhile isText)
  | ' ' :: cs => skipFiller cs
  | '\t' :: cs => skipFiller cs
  | '\n' :: cs => skipFiller cs
  | '\r' :: '\n' :: cs => skipFiller cs
  | cs => cs
termination_by cs => cs.length
decreasing_by
  · have := (List.dropWhile_sublist isText (l := cs)).length_le
    simp only [List.length_cons]
    omega
  all_goals simp only [List.length_cons]; omega

end ArenaHeap.Toml
