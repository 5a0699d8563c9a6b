import ArenaHeap.Collect.Collection
import ArenaHeap.Config.ByteCount
import ArenaHeap.Text.Blank
import ArenaHeap.Toml.Codec

namespace ArenaHeap

/-!
# Configuration

The sizes of an arena and of its reserved part, from a TOML document, a file or the environment.
`Heap.ofConfig` makes the heap that a configuration describes. How TOML is read and written is not
decided here: documents go through a `Toml.Codec`.
-/

/-- The sizes of an arena and of its reserved part. -/
structure Config where
  /-- Bytes of the arena. -/
  arenaBytes : UInt64 := 1024 * 1024
  /-- Bytes in front of the bitmap that are left to the embedder. -/
  reservedBytes : UInt64 := 0
deriving DecidableEq, Repr

/-- Why a file could not be read as text. -/
inductive ReadProblem where
  | noSuchFile
  | isDirectory
  | notText
deriving DecidableEq, Repr

namespace ReadProblem

/-- The text of a problem. -/
def message : ReadProblem → String
  | noSuchFile => "No such file or directory (os error 2)"
  | isDirectory => "Is a directory (os error 21)"
  | notText => "stream did not contain valid UTF-8"

end ReadProblem

/-- Why there is no configuration. -/
inductive ConfigError where
  /-- The file could not be read. -/
  | unreadable (problem : ReadProblem)
  /-- The document is not valid, or a size in it is none. -/
  | malformed
  /-- A variable of the environment is no byte count. -/
  | byteCount (name value : String) (problem : ByteCountProblem)
deriving DecidableEq, Repr

namespace ConfigError

/-- The text of an error. -/
def message : ConfigError → String
  | unreadable problem => s!"Failed to read config: {problem.message}"
  | malformed => "Failed to parse config"
  | byteCount name value problem => s!"{name}: invalid byte count '{value}': {problem.message}"

/-- The error as callers of a heap meet it. -/
def toHeapError (e : ConfigError) : HeapError := .config e.message

end ConfigError

/-- What is found under the name of a file. -/
inductive FileContents where
  | missing
  | directory
  | bytes (bytes : ByteArray)

namespace FileContents

/-- The text of a file. -/
def readText : FileContents → Except ReadProblem String
  | missing => .error .noSuchFile
  | directory => .error .isDirectory
  | bytes b =>
    match String.fromUTF8? b with
    | some text => .ok text
    | none => .error .notText

end FileContents

namespace Config

/-! ### Reading one size after the other -/

section Sizes

variable {ε : Type} {arenaBytes reservedBytes : Except ε UInt64}

theorem sizes_eq_ok_iff {c : Config} :
    (do return (⟨← arenaBytes, ← reservedBytes⟩ : Config)) = (.ok c : Except ε Config) ↔
      arenaBytes = .ok c.arenaBytes ∧ reservedBytes = .ok c.reservedBytes := by
  obtain ⟨a, r⟩ := c
  cases arenaBytes <;> cases reservedBytes <;>
    simp [bind, Except.bind, pure, Except.pure]

/-- The first size that cannot be read is the one reported. -/
theorem sizes_eq_error_iff {e : ε} :
    (do return (⟨← arenaBytes, ← reservedBytes⟩ : Config)) = (.error e : Except ε Config) ↔
      arenaBytes = .error e ∨ (∃ n, arenaBytes = .ok n) ∧ reservedBytes = .error e := by
  cases arenaBytes <;> cases reservedBytes <;>
    simp [bind, Except.bind, pure, Except.pure]

end Sizes

/-! ### Checking -/

/-- Checks the sizes before any memory is taken. -/
def validate (c : Config) : Except HeapError Unit :=
  if c.arenaBytes = 0 ∨ c.arenaBytes.toNat % Word.bytes ≠ 0 then
    .error (.invalidArenaSize c.arenaBytes.toNat)
  else if c.reservedBytes.toNat % Word.bytes ≠ 0 ∨ c.arenaBytes ≤ c.reservedBytes then
    .error (.invalidHeapStart c.reservedBytes.toInt64.toInt)
  else .ok ()

/-! ### Documents -/

/-- The size that a document gives under a key; `ifMissing` if it says nothing of it. -/
def sizeIn (values : List (String × Toml.Value)) (key : String) (ifMissing : UInt64) :
    Except ConfigError UInt64 :=
  match values.lookup key with
  | none => .ok ifMissing
  | some (.integer n) => if 0 ≤ n then .ok (UInt64.ofNat n.toNat) else .error .malformed
  | some .other => .error .malformed

/-- The configuration that a document gives. Keys of other names say nothing. -/
def ofValues (values : List (String × Toml.Value)) : Except ConfigError Config := do
  return {
    arenaBytes := ← sizeIn values "arena_bytes" ({} : Config).arenaBytes
    reservedBytes := ← sizeIn values "reserved_bytes" ({} : Config).reservedBytes }

/-- Reads a configuration from the text of a document. -/
def parse (text : String) (toml : Toml.Codec := Toml.codec) : Except ConfigError Config :=
  match toml.read text with
  | none => .error .malformed
  | some values => ofValues values

/-- Reads a configuration from a file. -/
def load (file : FileContents) (toml : Toml.Codec := Toml.codec) : Except ConfigError Config :=
  match file.readText with
  | .ok text => parse text toml
  | .error problem => .error (.unreadable problem)

/-- The sizes of a configuration under their keys. -/
def sizes (c : Config) : List (String × Nat) :=
  [("arena_bytes", c.arenaBytes.toNat), ("reserved_bytes", c.reservedBytes.toNat)]

/-- The document that describes a configuration, if its sizes can be written there. -/
def toDocument? (c : Config) (toml : Toml.Codec := Toml.codec) : Option String :=
  toml.write c.sizes

/-! ### The environment -/

/-- The size that a variable gives; `ifMissing` if it is not set. -/
def sizeOf (env : String → Option String) (name : String) (ifMissing : UInt64) :
    Except ConfigError UInt64 :=
  match env name with
  | none => .ok ifMissing
  | some value =>
    match ByteCount.parse (Text.trim value.toList) with
    | .ok n => .ok (UInt64.ofNat n)
    | .error problem => .error (.byteCount name value problem)

/-- Reads a configuration from the variables of the environment. -/
def ofEnvironment (env : String → Option String) : Except ConfigError Config := do
  return {
    arenaBytes := ← sizeOf env "MSGC_ARENA_BYTES" ({} : Config).arenaBytes
    reservedBytes := ← sizeOf env "MSGC_RESERVED_BYTES" ({} : Config).reservedBytes }

end Config

/-- The heap that a configuration describes. -/
def Heap.ofConfig (c : Config) : Except HeapError ((L : Layout) × Heap L) := do
  c.validate
  let arena ← Arena.new c.arenaBytes.toNat
  arena.intoHeap (.ofIndex (c.reservedBytes.toNat / Word.bytes))

end ArenaHeap
