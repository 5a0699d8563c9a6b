namespace ArenaHeap.Toml

/-!
# Tables

What a document defines: under each key a value, a table or an array of tables. A table comes
about in one of three ways, and that decides how it may be extended: `TableKind`. Of an array of
tables only the last one can be extended, so no other is kept; and of a value only an integer is
of use to a reader of settings.
-/

/-- The value under a key. -/
inductive Value where
  /-- An integer. -/
  | integer (n : Int)
  /-- Anything else. -/
  | other
deriving DecidableEq, Repr

/-- How a table came about. -/
inductive TableKind where
  /-- Through a header of its own. -/
  | header
  /-- On the way to the table of a header. -/
  | passed
  /-- Through a key with points. -/
  | dotted
deriving DecidableEq, Repr

/-- What a document defines under a key. -/
inductive Node where
  | leaf (value : Value)
  | table (kind : TableKind) (entries : List (String × Node))
  /-- An array of tables, by the entries of its last table. -/
  | tables (last : List (String × Node))

/-- The keys of a table in the order of their definition. -/
abbrev Entries := List (String × Node)

namespace Entries

/-- What is defined under a key. -/
def find? (es : Entries) (key : String) : Option Node := List.lookup key es

/-- Replaces what is defined under a key. -/
def replace (es : Entries) (key : String) (node : Node) : Entries :=
  es.map fun e => if e.1 = key then (key, node) else e

/-- Changes the table at the end of a path, making the tables on the way. The path stems from a
    header or from a key with points; the latter must not pass a table with a header. The change
    also depends on how the table came about. -/
def within (dotted : Bool) (path : List String) (kind : TableKind)
    (change : TableKind → Entries → Option Entries) (es : Entries) : Option Entries :=
  match path with
  | [] => change kind es
  | key :: path =>
    match es.find? key with
    | none => do
      let kind : TableKind := if dotted then .dotted else .passed
      return es ++ [(key, .table kind (← within dotted path kind change []))]
    | some (.leaf _) => none
    | some (.table kind inner) => do
      if dotted && kind = .header then none
      else return es.replace key (.table kind (← within dotted path kind change inner))
    | some (.tables last) => do
      return es.replace key (.tables (← within dotted path .header change last))

/-- Defines a value under a key with points. A key without points belongs to a table with a
    header, one with points to a table that came about through such keys. -/
def define (path : List String) (key : String) (value : Value) (es : Entries) :
    Option Entries :=
  within true path .header (fun kind es =>
    -- No key with points ends in a table with a header, and no other in one made by points.
    if (kind = .dotted) = path.isEmpty then none
    else if (es.find? key).isSome then none
    else some (es ++ [(key, .leaf value)])) es

/-- Opens the table of a header. A table is opened once, but one passed on the way to another may
    be opened later. -/
def openTable (path : List String) (key : String) (es : Entries) : Option Entries :=
  within false path .header (fun _ es =>
    match es.find? key with
    | none => some (es ++ [(key, .table .header [])])
    | some (.table .passed inner) => some (es.replace key (.table .header inner))
    | some _ => none) es

/-- Opens one more table of an array of tables. -/
def openElement (path : List String) (key : String) (es : Entries) : Option Entries :=
  within false path .header (fun _ es =>
    match es.find? key with
    | none => some (es ++ [(key, .tables [])])
    | some (.tables _) => some (es.replace key (.tables []))
    | some _ => none) es

end Entries

end ArenaHeap.Toml
