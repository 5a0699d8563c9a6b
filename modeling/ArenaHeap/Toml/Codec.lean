import ArenaHeap.Toml.Document

namespace ArenaHeap.Toml

/-!
# Reading and writing documents

What settings need of a library for TOML is little: the values under the keys of a document, and a
document for some numbers. Whoever reads settings takes a `Codec` for that, which may be any such
library. `codec` is this one.
-/

/-- A library for TOML, as far as settings need it. -/
structure Codec where
  /-- The keys of a document with their values; none if the text is no document. -/
  read : (text : String) → Option (List (String × Value))
  /-- A document that gives some numbers under their keys; none if none can be written. -/
  write : (numbers : List (String × Nat)) → Option String

/-- What is under a key, seen as a value. -/
def Node.value : Node → Value
  | leaf value => value
  | table _ _ => .other
  | tables _ => .other

namespace Document

/-- Reads the keys of a document with their values. -/
def values? (text : String) : Option (List (String × Value)) :=
  (parse? text).map fun es => es.map fun e => (e.1, e.2.value)

/-- Numbers in documents are below this, as integers there have a sign. -/
def limit : Nat := 1 <<< 63

/-- A line for each number, under a key that needs no quotes. -/
def lines : (numbers : List (String × Nat)) → List Char
  | [] => []
  | (key, n) :: numbers =>
    key.toList ++ [' ', '=', ' '] ++ Nat.toDigits 10 n ++ '\n' :: lines numbers

/-- Writes some numbers under their keys. -/
def ofNumbers? (numbers : List (String × Nat)) : Option String :=
  if ∀ d ∈ numbers, d.2 < limit then some (String.ofList (lines numbers)) else none

end Document

/-- The reader and the writer of this library. -/
def codec : Codec := ⟨Document.values?, Document.ofNumbers?⟩

end ArenaHeap.Toml
