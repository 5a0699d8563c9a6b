import ArenaHeap.Toml.Moment
import ArenaHeap.Toml.Number
import ArenaHeap.Toml.Table
import ArenaHeap.Toml.Text

namespace ArenaHeap.Toml

/-!
# Documents

`Document.parse?` reads a TOML 1.0 document: lines that define values under keys, and headers
that open the table the following lines belong to. It returns the entries of the document's own
table, or `none` if the document is not valid.
-/

/-! ### Values -/

/-- Reads a string. -/
def string? : List Char → Option (Value × List Char)
  | '"' :: '"' :: '"' :: cs => (skipBasicLines cs).map (.other, ·)
  | '"' :: cs => (basicText? cs).map fun (_, cs) => (.other, cs)
  | '\'' :: '\'' :: '\'' :: cs => (skipLiteralLines cs).map (.other, ·)
  | '\'' :: cs => (literalText? cs).map fun (_, cs) => (.other, cs)
  | _ => none

/-- Reads a truth value. -/
def boolean? : List Char → Option (Value × List Char)
  | 't' :: 'r' :: 'u' :: 'e' :: cs => some (.other, cs)
  | 'f' :: 'a' :: 'l' :: 's' :: 'e' :: cs => some (.other, cs)
  | _ => none

/-- Reads a value that holds no others. -/
def scalar? (cs : List Char) : Option (Value × List Char) :=
  match cs with
  | [] => none
  | c :: _ =>
    if c = '"' ∨ c = '\'' then string? cs
    else if c = 't' ∨ c = 'f' then boolean? cs
    else if startsDate cs then (skipMoment? cs).map (.other, ·)
    else if startsTime cs then (skipTime? cs).map (.other, ·)
    else (number? cs).map fun
      | (.integer n, cs) => (.integer n, cs)
      | (.float, cs) => (.other, cs)

/-- Passes over the items of an array behind its opening bracket or a comma. -/
def skipItems (item : List Char → Option (Value × List Char)) :
    (items : Nat) → List Char → Option (List Char)
  | 0, _ => none
  | items + 1, cs =>
    match skipFiller cs with
    | ']' :: cs => some cs
    | cs => do
      let (_, cs) ← item cs
      match skipFiller cs with
      | ']' :: cs => some cs
      | ',' :: cs => skipItems item items cs
      | _ => none

/-- Reads a key and the equals sign behind it. -/
def keyEquals? (cs : List Char) : Option ((List String × String) × List Char) := do
  let (key, cs) ← key? depthLimit cs
  match cs with
  | '=' :: cs => return (key, skipBlanks cs)
  | _ => none

/-- Passes over the definitions in an inline table behind its opening brace or a comma, on top of
    the entries defined before. -/
def skipPairs (item : List Char → Option (Value × List Char)) :
    (pairs : Nat) → Entries → List Char → Option (List Char)
  | 0, _, _ => none
  | pairs + 1, es, cs => do
    let ((path, key), cs) ← keyEquals? cs
    let (value, cs) ← item cs
    let es ← es.define path key value
    match skipBlanks cs with
    | '}' :: cs => some cs
    | ',' :: cs => skipPairs item pairs es cs
    | _ => none

/-- Reads a value in which arrays and inline tables nest at most `depth` deep. -/
def value? : (depth : Nat) → List Char → Option (Value × List Char)
  -- At the limit a bracket or a brace begins no value.
  | 0, cs => scalar? cs
  | depth + 1, '[' :: cs => (skipItems (value? depth) (cs.length + 1) cs).map (.other, ·)
  | depth + 1, '{' :: cs =>
    match skipBlanks cs with
    | '}' :: cs => some (.other, cs)
    | cs => (skipPairs (value? depth) (cs.length + 1) [] cs).map (.other, ·)
  | _ + 1, cs => scalar? cs

/-! ### Lines -/

/-- The tables of a document as far as it was read. -/
structure Reading where
  /-- The entries of the document's own table. -/
  entries : Entries
  /-- The path of the table that lines belong to. -/
  current : List String

namespace Reading

/-- Reads the header of a table behind its opening bracket. -/
def header? (r : Reading) (cs : List Char) : Option (Reading × List Char) := do
  let ((path, key), cs) ← key? depthLimit cs
  match cs with
  | ']' :: cs => return (⟨← r.entries.openTable path key, path ++ [key]⟩, ← trailing? cs)
  | _ => none

/-- Reads the header of an array of tables behind its opening brackets. -/
def element? (r : Reading) (cs : List Char) : Option (Reading × List Char) := do
  let ((path, key), cs) ← key? depthLimit cs
  match cs with
  | ']' :: ']' :: cs =>
    return (⟨← r.entries.openElement path key, path ++ [key]⟩, ← trailing? cs)
  | _ => none

/-- Reads the definition of a value. -/
def definition? (r : Reading) (cs : List Char) : Option (Reading × List Char) := do
  let ((path, key), cs) ← keyEquals? cs
  let (value, cs) ← value? depthLimit cs
  let cs ← trailing? cs
  let entries ← r.entries.within false r.current .header fun _ es => es.define path key value
  return ({ r with entries }, cs)

/-- Reads what begins at the first character of a line that is not blank. -/
def line? (r : Reading) (cs : List Char) : Option (Reading × List Char) :=
  match cs with
  | '#' :: cs => (trailing? ('#' :: cs)).map (r, ·)
  | '[' :: '[' :: cs => r.element? cs
  | '[' :: cs => r.header? cs
  | cs =>
    match newline? cs with
    | some cs => some (r, cs)
    | none => r.definition? cs

/-- Reads at most `lines` lines to the end of the document. -/
def lines? : (lines : Nat) → Reading → List Char → Option Reading
  | 0, _, _ => none
  | lines + 1, r, cs =>
    match skipBlanks cs with
    | [] => some r
    | cs => do
      let (r, cs) ← r.line? cs
      lines? lines r cs

end Reading

namespace Document

/-- Reads a document; a byte-order mark in front of it says nothing. -/
def parse? (text : String) : Option Entries :=
  let cs := match text.toList with
    | '\uFEFF' :: cs => cs
    | cs => cs
  ((Reading.mk [] []).lines? (cs.length + 1) cs).map (·.entries)

end Document

end ArenaHeap.Toml
