import ArenaHeap.Proofs.Toml.Definitions

namespace ArenaHeap.Toml

/-!
# Codecs that read and write TOML 1.0

What TOML 1.0 says of documents that give numbers under their keys: such a document is read as what
its lines define, and what is written for some numbers is such a document. Integers have 64 bits and
a sign, and one that does not fit must be refused, so there is no document for it.

* `Describes` — a document gives some numbers.
* `Codec.Lawful` — what is relied on of a library for TOML.
* `codec_lawful` — the one of this library is lawful.
-/

variable {text : String} {numbers : List (String × Nat)}

/-- A document gives some numbers under their keys. -/
structure Describes (text : String) (numbers : List (String × Nat)) : Prop where
  defines : Defines numbers text.toList
  /-- No key is defined twice. -/
  nodup : (numbers.map Prod.fst).Nodup
  /-- Integers end here. -/
  lt : ∀ d ∈ numbers, d.2 < 2 ^ 63

/-- A library reads and writes numbers as TOML 1.0 has it. -/
structure Codec.Lawful (toml : Codec) : Prop where
  /-- A document is read as what it gives. In which order is left open, as keys have none. -/
  reads : ∀ {text numbers}, Describes text numbers → ∃ values, toml.read text = some values ∧
    ∀ key, values.lookup key = (numbers.lookup key).map fun n => .integer n
  /-- Whatever is written for some numbers is a document that gives them. -/
  writes : ∀ {numbers text}, (∀ d ∈ numbers, Bare d.1) → (numbers.map Prod.fst).Nodup →
    toml.write numbers = some text → Describes text numbers
  /-- If there is a document that gives them, one is written. -/
  completes : ∀ {numbers text}, (∀ d ∈ numbers, Bare d.1) → Describes text numbers →
    ∃ written, toml.write numbers = some written

theorem describes_lines (hbare : ∀ d ∈ numbers, Bare d.1) (hnodup : (numbers.map Prod.fst).Nodup)
    (hlt : ∀ d ∈ numbers, d.2 < 2 ^ 63) :
    Describes (String.ofList (Document.lines numbers)) numbers :=
  ⟨String.toList_ofList ▸ defines_lines hbare, hnodup, hlt⟩

/-- The entries that definitions make have the numbers under their keys. -/
theorem lookup_entriesOf (numbers : List (String × Nat)) (key : String) :
    ((entriesOf numbers).map fun e => (e.1, e.2.value)).lookup key =
      (numbers.lookup key).map fun n => .integer n := by
  rw [entriesOf, List.map_map]
  show (numbers.map fun d => (d.1, Value.integer d.2)).lookup key = _
  induction numbers with
  | nil => rfl
  | cons d numbers ih =>
    rw [List.map_cons, List.lookup_cons, List.lookup_cons, ih]
    split <;> rfl

theorem Document.limit_eq : limit = 2 ^ 63 := by decide

/-- **This library.** It reads and writes numbers as TOML 1.0 has it. -/
theorem codec_lawful : codec.Lawful where
  reads {text numbers} h := by
    refine ⟨_, ?_, lookup_entriesOf numbers⟩
    show Document.values? text = _
    rw [Document.values?, Document.parse?_defines h.defines h.nodup h.lt, Option.map_some]
  writes {numbers text} hbare hnodup h := by
    have hwrite : Document.ofNumbers? numbers = some text := h
    rw [Document.ofNumbers?, Document.limit_eq] at hwrite
    split at hwrite
    · cases hwrite
      exact describes_lines hbare hnodup ‹_›
    · cases hwrite
  completes {numbers text} _ h := by
    have hlt : ∀ d ∈ numbers, d.2 < Document.limit := Document.limit_eq ▸ h.lt
    exact ⟨_, if_pos hlt⟩

end ArenaHeap.Toml
