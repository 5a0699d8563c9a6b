import ArenaHeap.Toml.Scan

namespace ArenaHeap.Toml

/-!
# Strings and keys

The four kinds of strings, and keys, whose parts are bare or quoted words with points between.
Of strings on several lines only the extent is found, since they are no keys.
-/

/-- The character with the code that some hexadecimal digits write, if there is one. -/
def charOfHex? (digits : List Char) : Option Char := do
  let code ← digits.foldlM (fun n c => return n * 16 + (← hexDigit? c)) 0
  if code.isValidChar then return Char.ofNat code else none

/-- Reads an escape behind its backslash. -/
def escape? : List Char → Option (Char × List Char)
  | [] => none
  | c :: cs =>
    match c with
    | 'b' => some ('\x08', cs)
    | 't' => some ('\t', cs)
    | 'n' => some ('\n', cs)
    | 'f' => some ('\x0c', cs)
    | 'r' => some ('\r', cs)
    | '"' => some ('"', cs)
    | '\\' => some ('\\', cs)
    | 'u' => if 4 ≤ cs.length then (charOfHex? (cs.take 4)).map (·, cs.drop 4) else none
    | 'U' => if 8 ≤ cs.length then (charOfHex? (cs.take 8)).map (·, cs.drop 8) else none
    | _ => none

theorem escape?_length {cs rest : List Char} {c : Char} (h : escape? cs = some (c, rest)) :
    rest.length < cs.length := by
  unfold escape? at h
  split at h
  · simp at h
  · split at h <;> (try split at h) <;> simp_all <;> grind

/-- Reads the rest of a quoted string on one line, of which the characters in `read` were read,
    the last one first. -/
def moreText? (read cs : List Char) : Option (List Char × List Char) :=
  match cs with
  | [] => none
  | '"' :: cs => some (read.reverse, cs)
  | '\\' :: cs =>
    match he : escape? cs with
    | some (c, rest) =>
      have := escape?_length he
      moreText? (c :: read) rest
    | none => none
  | c :: cs => if isText c then moreText? (c :: read) cs else none
termination_by cs.length
decreasing_by all_goals simp only [List.length_cons]; omega

/-- Reads a quoted string on one line behind its opening quote. -/
def basicText? (cs : List Char) : Option (List Char × List Char) := moreText? [] cs

/-- A character that a string without escapes may hold. -/
def isLiteral (c : Char) : Bool := isText c && c != '\''

/-- Reads a string without escapes on one line behind its opening quote. -/
def literalText? (cs : List Char) : Option (List Char × List Char) :=
  match cs.dropWhile isLiteral with
  | '\'' :: rest => some (cs.takeWhile isLiteral, rest)
  | _ => none

/-- Passes over up to two quotes in front of the closing three, which belong to the text. -/
def skipQuotes (quote : Char) : List Char → List Char
  | c :: d :: cs =>
    if c = quote then (if d = quote then cs else d :: cs) else c :: d :: cs
  | c :: cs => if c = quote then cs else c :: cs
  | [] => []

/-- Passes over a quoted string of several lines behind its opening quotes. -/
def skipBasicLines (cs : List Char) : Option (List Char) :=
  match cs with
  | [] => none
  | '"' :: '"' :: '"' :: cs => some (skipQuotes '"' cs)
  | '\\' :: cs =>
    if (newline? (skipBlanks cs)).isSome then skipBasicLines cs
    else
      match he : escape? cs with
      | some (_, rest) =>
        have := escape?_length he
        skipBasicLines rest
      | none => none
  | '\n' :: cs => skipBasicLines cs
  | '\r' :: '\n' :: cs => skipBasicLines cs
  | c :: cs => if isText c then skipBasicLines cs else none
termination_by cs.length
decreasing_by all_goals simp only [List.length_cons]; omega

/-- Passes over a string without escapes of several lines behind its opening quotes. -/
def skipLiteralLines : List Char → Option (List Char)
  | [] => none
  | '\'' :: '\'' :: '\'' :: cs => some (skipQuotes '\'' cs)
  | '\n' :: cs => skipLiteralLines cs
  | '\r' :: '\n' :: cs => skipLiteralLines cs
  | c :: cs => if isText c then skipLiteralLines cs else none

/-! ### Keys -/

/-- A character of a bare key. -/
def isBare (c : Char) : Bool := c.isAlphanum || c == '_' || c == '-'

/-- Reads one part of a key. -/
def keyPart? : List Char → Option (String × List Char)
  | '"' :: cs => (basicText? cs).map fun (text, rest) => (String.ofList text, rest)
  | '\'' :: cs => (literalText? cs).map fun (text, rest) => (String.ofList text, rest)
  | cs =>
    match cs.takeWhile isBare with
    | [] => none
    | word => some (String.ofList word, cs.dropWhile isBare)

/-- Reads a key of at most `parts` parts: all but the last, and the last. Blanks around the parts
    say nothing. -/
def key? : (parts : Nat) → List Char → Option ((List String × String) × List Char)
  | 0, _ => none
  | parts + 1, cs => do
    let (part, cs) ← keyPart? (skipBlanks cs)
    match skipBlanks cs with
    | '.' :: cs =>
      let ((path, last), cs) ← key? parts cs
      return ((part :: path, last), cs)
    | cs => return (([], part), cs)

/-- How deep arrays, inline tables and the parts of a key may nest. -/
def depthLimit : Nat := 79

end ArenaHeap.Toml
