import ArenaHeap.Config.Basic
import ArenaHeap.Proofs.Toml.Lawful

namespace ArenaHeap.Config

/-!
# Sizes from documents

A document that gives numbers gives the sizes among them, in whatever order they stand and however
they are written; a size that it does not give has its default. The document that is written for a
configuration is such a document, so it gives the configuration back. Only sizes that need the top
bit cannot be written.

All of that holds of any library for TOML that is lawful: nothing is said here of how it reads and
writes, only that it does so as TOML 1.0 has it.

* `parse_describes` — what a document that gives numbers comes to.
* `toDocument?_eq_none_iff`, `parse_toDocument?` — which configurations have a document, and what
  that one comes to.
* `document_round_trip` — both together.
-/

variable {toml : Toml.Codec} {c : Config} {text : String} {numbers : List (String × Nat)}

theorem eq_of_toNat {c c' : Config} (harena : c.arenaBytes.toNat = c'.arenaBytes.toNat)
    (hreserved : c.reservedBytes.toNat = c'.reservedBytes.toNat) : c = c' := by
  obtain ⟨a, r⟩ := c
  obtain ⟨a', r'⟩ := c'
  exact congrArg₂ Config.mk (UInt64.toNat_inj.1 harena) (UInt64.toNat_inj.1 hreserved)

/-! ### Reading -/

/-- The size under a key is the number there, or else the default. -/
theorem sizeIn_integers {values : List (String × Toml.Value)}
    (hvalues : ∀ key, values.lookup key = (numbers.lookup key).map fun n => .integer n)
    (hlt : ∀ d ∈ numbers, d.2 < 2 ^ 63) (key : String) (ifMissing : UInt64) :
    ∃ n, sizeIn values key ifMissing = .ok n ∧
      n.toNat = (numbers.lookup key).getD ifMissing.toNat := by
  rw [sizeIn, hvalues]
  cases hkey : numbers.lookup key with
  | none => exact ⟨ifMissing, rfl, rfl⟩
  | some n =>
    obtain ⟨before, behind, rfl, _⟩ := List.lookup_eq_some_iff.1 hkey
    have hn : n < 2 ^ 63 := hlt (key, n) (List.mem_append_right _ List.mem_cons_self)
    have hvalue : (UInt64.ofNat n).toNat = n := UInt64.toNat_ofNat_of_lt' (hn.trans_le (by decide))
    exact ⟨UInt64.ofNat n, if_pos n.cast_nonneg, hvalue⟩

/-- What a document that gives numbers comes to. -/
theorem parse_describes (htoml : toml.Lawful) (h : Toml.Describes text numbers) :
    ∃ c, parse text toml = .ok c ∧
      c.arenaBytes.toNat = (numbers.lookup "arena_bytes").getD (1024 * 1024) ∧
      c.reservedBytes.toNat = (numbers.lookup "reserved_bytes").getD 0 := by
  obtain ⟨values, hread, hvalues⟩ := htoml.reads h
  have hsize := sizeIn_integers hvalues h.lt
  obtain ⟨arenaBytes, harena, harenaBytes⟩ := hsize "arena_bytes" (1024 * 1024)
  obtain ⟨reservedBytes, hreserved, hreservedBytes⟩ := hsize "reserved_bytes" 0
  refine ⟨⟨arenaBytes, reservedBytes⟩, ?_, harenaBytes, hreservedBytes⟩
  rw [parse, hread]
  exact sizes_eq_ok_iff.2 ⟨harena, hreserved⟩

/-! ### Writing -/

theorem bare_arenaBytes : Toml.Bare "arena_bytes" := by
  simp [Toml.Bare, Toml.isBare]

theorem bare_reservedBytes : Toml.Bare "reserved_bytes" := by
  simp [Toml.Bare, Toml.isBare]

theorem bare_of_mem_sizes (c : Config) : ∀ d ∈ c.sizes, Toml.Bare d.1 :=
  List.forall_mem_cons.2 ⟨bare_arenaBytes, List.forall_mem_singleton.2 bare_reservedBytes⟩

theorem nodup_sizes (c : Config) : (c.sizes.map Prod.fst).Nodup := by
  show ["arena_bytes", "reserved_bytes"].Nodup
  decide

theorem sizes_lt_iff : (∀ d ∈ c.sizes, d.2 < 2 ^ 63) ↔
    c.arenaBytes.toNat < 2 ^ 63 ∧ c.reservedBytes.toNat < 2 ^ 63 := by
  simp [sizes]

/-- A configuration has a document just if each of its sizes is an integer of TOML. -/
theorem toDocument?_eq_none_iff (htoml : toml.Lawful) : c.toDocument? toml = none ↔
    2 ^ 63 ≤ c.arenaBytes.toNat ∨ 2 ^ 63 ≤ c.reservedBytes.toNat := by
  constructor
  · intro hnone
    by_contra hfits
    -- A document can be given for sizes that fit, so the library has to write one.
    have hlt : ∀ d ∈ c.sizes, d.2 < 2 ^ 63 := sizes_lt_iff.2 (by omega)
    have hlines := Toml.describes_lines c.bare_of_mem_sizes c.nodup_sizes hlt
    obtain ⟨written, hwrite⟩ := htoml.completes c.bare_of_mem_sizes hlines
    cases hnone.symm.trans hwrite
  · intro hlarge
    cases hwrite : c.toDocument? toml with
    | none => rfl
    | some text =>
      -- What was written would have to give a size that no document can give.
      have hlt := sizes_lt_iff.1 (htoml.writes c.bare_of_mem_sizes c.nodup_sizes hwrite).lt
      omega

/-- The document of a configuration gives the configuration back. -/
theorem parse_toDocument? (htoml : toml.Lawful) (h : c.toDocument? toml = some text) :
    parse text toml = .ok c := by
  have hdescribes := htoml.writes c.bare_of_mem_sizes c.nodup_sizes h
  obtain ⟨c', hparse, harena, hreserved⟩ := parse_describes htoml hdescribes
  rw [hparse, eq_of_toNat harena hreserved]

/-- **Sizes from documents.** With a lawful library for TOML, a configuration has a document just if
    both sizes fit 63 bits, and its document gives it back. Any document that gives numbers gives
    the sizes among them, and the defaults of the others. -/
theorem document_round_trip (htoml : toml.Lawful) :
    (∀ c : Config, c.toDocument? toml = none ↔
      2 ^ 63 ≤ c.arenaBytes.toNat ∨ 2 ^ 63 ≤ c.reservedBytes.toNat) ∧
    (∀ (c : Config) (text : String), c.toDocument? toml = some text →
      Toml.Describes text c.sizes ∧ parse text toml = .ok c) ∧
    ∀ (numbers : List (String × Nat)) (text : String), Toml.Describes text numbers →
      ∃ c, parse text toml = .ok c ∧
        c.arenaBytes.toNat = (numbers.lookup "arena_bytes").getD (1024 * 1024) ∧
        c.reservedBytes.toNat = (numbers.lookup "reserved_bytes").getD 0 := by
  refine ⟨fun _ => toDocument?_eq_none_iff htoml, fun c text h => ⟨?_, parse_toDocument? htoml h⟩,
    fun _ _ => parse_describes htoml⟩
  exact htoml.writes c.bare_of_mem_sizes c.nodup_sizes h

/-- The sizes in the other order, with what may stand between the parts of a line. -/
def reservedFirst : String := "reserved_bytes = 6_4 # kept\r\n\n\t\"arena_bytes\"=+4096"

theorem describes_reservedFirst :
    Toml.Describes reservedFirst [("reserved_bytes", 64), ("arena_bytes", 4096)] := by
  have hnone : Toml.Blanks [] := nofun
  have hspace : Toml.Blanks [' '] := List.forall_mem_singleton.2 rfl
  have htab : Toml.Blanks ['\t'] := List.forall_mem_singleton.2 rfl
  have h64 : Toml.Decimal 64 ['6', '_', '4'] := .digits rfl (by decide) (.parted rfl .nil) rfl
  have h4096 : Toml.Decimal 4096 ['4', '0', '9', '6'] :=
    .digits rfl (by decide) (.digit rfl (.digit rfl (.digit rfl .nil))) rfl
  have hquoted : Toml.Spelled "arena_bytes" ('"' :: ("arena_bytes".toList ++ ['"'])) :=
    .quoted (by simp [Toml.isPlain, Toml.isText])
  have hcomment : Toml.Idle ([' '] ++ '#' :: " kept".toList) :=
    .comment hspace (by simp [Toml.isText])
  have hreserved := Toml.Definition.mk hnone (.bare bare_reservedBytes) hspace hspace (.plain h64)
    hcomment
  have harena := Toml.Definition.mk htab hquoted hnone hnone (.plus h4096) (.blanks hnone)
  have hdoc := Toml.Defines.definition hreserved .returnFeed
    (.idle (.blanks hnone) .feed (.definition harena .last .nil))
  exact ⟨by simpa [reservedFirst] using hdoc, by decide, by decide⟩

/-- With the library at hand that document is read, and so is the one that is written for the
    configuration in it. -/
theorem document_round_trip_reserved_first :
    Toml.codec.Lawful ∧
    Toml.Describes reservedFirst [("reserved_bytes", 64), ("arena_bytes", 4096)] ∧
    parse reservedFirst Toml.codec = .ok ⟨4096, 64⟩ ∧
    ∃ text, toDocument? ⟨4096, 64⟩ Toml.codec = some text ∧
      parse text Toml.codec = .ok ⟨4096, 64⟩ := by
  obtain ⟨hfails, hback, hgives⟩ := document_round_trip Toml.codec_lawful
  obtain ⟨c, hparse, harena, hreserved⟩ := hgives _ _ describes_reservedFirst
  have hc : c = ⟨4096, 64⟩ := eq_of_toNat harena hreserved
  have hsome : toDocument? ⟨4096, 64⟩ Toml.codec ≠ none := mt (hfails _).1 (by decide)
  obtain ⟨text, htext⟩ := Option.ne_none_iff_exists'.1 hsome
  exact ⟨Toml.codec_lawful, describes_reservedFirst, hc ▸ hparse, text, htext,
    (hback _ _ htext).2⟩

end ArenaHeap.Config
