import ArenaHeap.Config.Basic
import Mathlib

namespace ArenaHeap

/-!
# Sizes from the environment

A variable that is set gives a size as a byte count, with white space around it or without. A byte
count is read from left to right, and the reader stops at the first thing that is wrong. What it
stops at can be said of the text as a whole: either some digits in front already make a number that
is too large, or they never do and the text is no number.

* `Text.Trims`, `Text.trim_eq_iff` — what is left of a text without the white space at its ends.
* `ByteCount.Denotes`, `ByteCount.Shows` — the number that a text denotes, or what is wrong with it.
* `ByteCount.parse_eq_ok_iff`, `ByteCount.parse_eq_error_iff` — the reader finds just that.
* `Config.ofEnvironment_exact` — the configuration of an environment, or its first bad variable.
-/

/-! ### White space at the ends -/

namespace Text

variable {cs t : List Char}

/-- White space in front of `t` and behind it makes `cs`, and `t` neither begins nor ends with white
    space. -/
structure Trims (cs t : List Char) : Prop where
  split : ∃ front back, cs = front ++ (t ++ back) ∧
    (∀ c ∈ front, isBlank c = true) ∧ ∀ c ∈ back, isBlank c = true
  begins : ∀ c ∈ t.head?, isBlank c = false
  ends : ∀ c ∈ t.getLast?, isBlank c = false

theorem begins_dropWhile (cs : List Char) :
    ∀ c ∈ (cs.dropWhile isBlank).head?, isBlank c = false := by
  intro c hc
  have hnot := List.head?_dropWhile_not isBlank cs
  rw [Option.mem_def.1 hc] at hnot
  simpa using hnot

theorem trims_trim (cs : List Char) : Trims cs (trim cs) := by
  let back := ((cs.dropWhile isBlank).reverse.takeWhile isBlank).reverse
  have hback : cs.dropWhile isBlank = trim cs ++ back := by
    rw [trim, ← List.reverse_append, List.takeWhile_append_dropWhile, List.reverse_reverse]
  refine ⟨⟨cs.takeWhile isBlank, back, ?split, fun c => List.mem_takeWhile_imp,
    fun c hc => List.mem_takeWhile_imp (List.mem_reverse.1 hc)⟩, fun c hc => ?begins, ?ends⟩
  case split => rw [← hback, List.takeWhile_append_dropWhile]
  case begins =>
    refine begins_dropWhile cs c ?_
    rw [hback, List.head?_append, Option.mem_def.1 hc]
    rfl
  case ends =>
    rw [trim, List.getLast?_reverse]
    exact begins_dropWhile _

/-- Trimming gives the one text that is left. -/
theorem trim_eq_iff : trim cs = t ↔ Trims cs t := by
  refine ⟨fun heq => heq ▸ trims_trim cs, ?_⟩
  rintro ⟨⟨front, back, rfl, hfront, hback⟩, hbegins, hends⟩
  cases t with
  | nil =>
    have hall : ∀ c ∈ front ++ ([] ++ back), isBlank c = true := by
      rw [List.nil_append]
      exact fun c hc => (List.mem_append.1 hc).elim (hfront c) (hback c)
    rw [trim, List.dropWhile_eq_nil_iff.2 hall]
    rfl
  | cons c t =>
    rw [trim, dropWhile_front hfront (by simpa using hbegins), List.reverse_append,
      dropWhile_front (fun c hc => hback c (List.mem_reverse.1 hc))
        (by rwa [List.head?_reverse]), List.reverse_reverse]

theorem exists_trims {p : List Char → Prop} : (∃ t, Trims cs t ∧ p t) ↔ p (trim cs) := by
  simp only [← trim_eq_iff, exists_eq_left']

end Text

/-! ### Byte counts -/

namespace ByteCount

variable {n m : Nat} {t cs : List Char} {c : Char}

/-- The text behind the plus, if it begins with one. -/
def unsigned : List Char → List Char
  | '+' :: cs => cs
  | cs => cs

/-- Digits, at least one, behind a plus or not, write the number `n`, which fits 64 bits. -/
def Denotes (t : List Char) (n : Nat) : Prop :=
  unsigned t ≠ [] ∧ (∀ c ∈ unsigned t, c.isDigit = true) ∧
    Nat.ofDigitChars 10 (unsigned t) 0 = n ∧ n < 2 ^ 64

/-- Digits in front of everything else, behind a plus or not, write a number that does not fit. -/
def Exceeds (t : List Char) : Prop :=
  ∃ ds, ds <+: unsigned t ∧ (∀ c ∈ ds, c.isDigit = true) ∧
    2 ^ 64 ≤ Nat.ofDigitChars 10 ds 0

/-- What is wrong with a text. -/
def Shows (t : List Char) : ByteCountProblem → Prop
  | .empty => t = []
  | .tooLarge => Exceeds t
  | .invalidDigit => t ≠ [] ∧ ¬ Exceeds t ∧ ∀ n, ¬ Denotes t n

theorem le_ofDigitChars (n : Nat) (cs : List Char) : n ≤ Nat.ofDigitChars 10 cs n := by
  induction cs generalizing n with
  | nil => exact Nat.le_refl n
  | cons c cs ih =>
    rw [Nat.ofDigitChars_cons]
    exact Nat.le_trans (by omega) (ih _)

theorem ofDigits_cons_of_isDigit (hc : c.isDigit = true) : ofDigits n (c :: cs) =
    if 10 * n + (c.toNat - '0'.toNat) < limit then ofDigits (10 * n + (c.toNat - '0'.toNat)) cs
    else .error .tooLarge := by
  rw [ofDigits, digit?, if_pos hc, Nat.mul_comm n]

theorem ofDigits_cons_of_not_isDigit (hc : ¬ c.isDigit = true) :
    ofDigits n (c :: cs) = .error .invalidDigit := by
  rw [ofDigits, digit?, if_neg hc]

/-- Digits that never exceed the limit are read. -/
theorem ofDigits_eq_ok_iff (hn : n < limit) : ofDigits n cs = .ok m ↔
    (∀ c ∈ cs, c.isDigit = true) ∧ Nat.ofDigitChars 10 cs n = m ∧ m < limit := by
  induction cs generalizing n with
  | nil =>
    rw [ofDigits, Nat.ofDigitChars_nil, Except.ok.injEq]
    exact ⟨fun h => ⟨nofun, h, h ▸ hn⟩, fun h => h.2.1⟩
  | cons c cs ih =>
    rw [List.forall_mem_cons, Nat.ofDigitChars_cons]
    by_cases hc : c.isDigit = true
    · rw [ofDigits_cons_of_isDigit hc]
      by_cases hfits : 10 * n + (c.toNat - '0'.toNat) < limit
      · rw [if_pos hfits, ih hfits, and_iff_right hc]
      · rw [if_neg hfits]
        refine iff_of_false nofun ?_
        rintro ⟨_, rfl, hm⟩
        exact hfits (Nat.lt_of_le_of_lt (le_ofDigitChars _ cs) hm)
    · rw [ofDigits_cons_of_not_isDigit hc]
      exact iff_of_false nofun fun h => hc h.1.1

/-- The reader finds a number too large as soon as the digits read so far make one, whatever comes
    behind them. -/
theorem ofDigits_eq_tooLarge_iff (hn : n < limit) : ofDigits n cs = .error .tooLarge ↔
    ∃ ds, ds <+: cs ∧ (∀ c ∈ ds, c.isDigit = true) ∧ limit ≤ Nat.ofDigitChars 10 ds n := by
  induction cs generalizing n with
  | nil =>
    refine iff_of_false nofun ?_
    rintro ⟨ds, hds, _, hlimit⟩
    rw [List.prefix_nil.1 hds, Nat.ofDigitChars_nil] at hlimit
    omega
  | cons c cs ih =>
    by_cases hc : c.isDigit = true
    · rw [ofDigits_cons_of_isDigit hc]
      by_cases hfits : 10 * n + (c.toNat - '0'.toNat) < limit
      · rw [if_pos hfits, ih hfits]
        constructor
        · rintro ⟨ds, hds, hdigits, hlimit⟩
          exact ⟨c :: ds, (List.prefix_cons_inj c).2 hds, List.forall_mem_cons.2 ⟨hc, hdigits⟩,
            hlimit⟩
        · rintro ⟨ds, hds, hdigits, hlimit⟩
          rcases List.prefix_cons_iff.1 hds with rfl | ⟨ds, rfl, hrest⟩
          · rw [Nat.ofDigitChars_nil] at hlimit
            omega
          · exact ⟨ds, hrest, (List.forall_mem_cons.1 hdigits).2, hlimit⟩
      · rw [if_neg hfits]
        exact iff_of_true rfl ⟨[c], (List.prefix_cons_inj c).2 List.nil_prefix,
          by simpa using hc, Nat.le_of_not_lt hfits⟩
    · rw [ofDigits_cons_of_not_isDigit hc]
      refine iff_of_false nofun ?_
      rintro ⟨ds, hds, hdigits, hlimit⟩
      rcases List.prefix_cons_iff.1 hds with rfl | ⟨ds, rfl, _⟩
      · rw [Nat.ofDigitChars_nil] at hlimit
        omega
      · exact hc (hdigits c List.mem_cons_self)

theorem ofDigits_ne_empty (n : Nat) (cs : List Char) : ofDigits n cs ≠ .error .empty := by
  induction cs generalizing n with
  | nil => nofun
  | cons c cs ih =>
    rw [ofDigits]
    split
    · nofun
    · split
      · exact ih _
      · nofun

theorem unsigned_of_ne_plus (h : ∀ cs, t ≠ '+' :: cs) : unsigned t = t := by
  unfold unsigned
  split
  · exact absurd rfl (h _)
  · rfl

theorem parse_eq (t : List Char) : parse t =
    if t = [] then .error .empty
    else if unsigned t = [] then .error .invalidDigit
    else ofDigits 0 (unsigned t) := by
  unfold parse
  split
  · rfl
  · rfl
  · rename_i cs hcs
    have hne : cs ≠ [] := fun h => hcs h
    rw [if_neg (List.cons_ne_nil _ _), unsigned, if_neg hne]
  · rename_i hnil _ hplus
    have ht : t ≠ [] := fun h => hnil h
    rw [unsigned_of_ne_plus fun cs h => hplus cs h, if_neg ht, if_neg ht]

theorem parse_eq_ok_iff : parse t = .ok n ↔ Denotes t n := by
  rw [parse_eq, Denotes]
  by_cases ht : t = []
  · subst ht
    exact iff_of_false nofun fun h => h.1 rfl
  · rw [if_neg ht]
    by_cases hu : unsigned t = []
    · rw [if_pos hu]
      exact iff_of_false nofun fun h => h.1 hu
    · rw [if_neg hu, ofDigits_eq_ok_iff (by decide), and_iff_right hu]
      rfl

/-- What the reader says is wrong is what is wrong. -/
theorem parse_eq_error_iff {problem : ByteCountProblem} :
    parse t = .error problem ↔ Shows t problem := by
  have hempty : parse t = .error .empty ↔ t = [] := by
    rw [parse_eq]
    by_cases ht : t = []
    · rw [if_pos ht]
      exact iff_of_true rfl ht
    · rw [if_neg ht]
      refine iff_of_false ?_ ht
      split
      · nofun
      · exact ofDigits_ne_empty 0 _
  have hlarge : parse t = .error .tooLarge ↔ Exceeds t := by
    rw [parse_eq, Exceeds]
    by_cases hu : unsigned t = []
    · rw [hu, if_pos rfl]
      refine iff_of_false (by split <;> nofun) ?_
      rintro ⟨ds, hds, _, hlimit⟩
      rw [List.prefix_nil.1 hds, Nat.ofDigitChars_nil] at hlimit
      exact absurd hlimit (by decide)
    · have ht : t ≠ [] := by
        rintro rfl
        exact hu rfl
      rw [if_neg ht, if_neg hu, ofDigits_eq_tooLarge_iff (by decide)]
      rfl
  cases problem with
  | empty => exact hempty
  | tooLarge => exact hlarge
  | invalidDigit =>
    rw [Shows, Ne, ← hempty, ← hlarge]
    simp only [← parse_eq_ok_iff]
    cases parse t with
    | ok n => exact iff_of_false nofun fun h => h.2.2 n rfl
    | error problem => cases problem <;> simp

-- The largest byte count with a letter behind it, and one digit more than that.
example : parse "18446744073709551615x".toList = .error .invalidDigit := by decide +kernel
example : parse "18446744073709551616x".toList = .error .tooLarge := by decide +kernel

end ByteCount

/-- What is wrong can be told from the text that says it. -/
theorem ByteCountProblem.message_injective : Function.Injective message := by
  intro p q h
  cases p <;> cases q <;> simp_all [message]

/-! ### Variables -/

namespace Config

variable {env : String → Option String} {name value : String} {ifMissing n : UInt64}
  {e : ConfigError}

/-- A variable gives a size: that of the byte count in it, or the default if it is not set. -/
def Gives (setting : Option String) (ifMissing n : UInt64) : Prop :=
  match setting with
  | none => n = ifMissing
  | some value => ∃ t, Text.Trims value.toList t ∧ ByteCount.Denotes t n.toNat

/-- A variable is set, and its value is no byte count. -/
def Spoils (setting : Option String) (value : String) (problem : ByteCountProblem) : Prop :=
  setting = some value ∧ ∃ t, Text.Trims value.toList t ∧ ByteCount.Shows t problem

theorem sizeOf_unset (h : env name = none) : sizeOf env name ifMissing = .ok ifMissing := by
  rw [sizeOf, h]

theorem sizeOf_of_parse_ok {m : Nat} (h : env name = some value)
    (hparse : ByteCount.parse (Text.trim value.toList) = .ok m) :
    sizeOf env name ifMissing = .ok (UInt64.ofNat m) := by
  simp only [sizeOf, h, hparse]

theorem sizeOf_of_parse_error {problem : ByteCountProblem} (h : env name = some value)
    (hparse : ByteCount.parse (Text.trim value.toList) = .error problem) :
    sizeOf env name ifMissing = .error (.byteCount name value problem) := by
  simp only [sizeOf, h, hparse]

theorem sizeOf_eq_ok_iff : sizeOf env name ifMissing = .ok n ↔ Gives (env name) ifMissing n := by
  cases hset : env name with
  | none =>
    rw [sizeOf_unset hset, Except.ok.injEq]
    exact eq_comm
  | some value =>
    show _ ↔ ∃ t, Text.Trims value.toList t ∧ ByteCount.Denotes t n.toNat
    rw [Text.exists_trims, ← ByteCount.parse_eq_ok_iff]
    cases hparse : ByteCount.parse (Text.trim value.toList) with
    | error problem =>
      rw [sizeOf_of_parse_error hset hparse]
      exact iff_of_false nofun nofun
    | ok m =>
      -- What fits 64 bits is kept as it is.
      have hm : (UInt64.ofNat m).toNat = m :=
        UInt64.toNat_ofNat_of_lt' (ByteCount.parse_eq_ok_iff.1 hparse).2.2.2
      rw [sizeOf_of_parse_ok hset hparse, Except.ok.injEq, Except.ok.injEq, ← UInt64.toNat_inj, hm]

theorem sizeOf_eq_error_iff (ifMissing : UInt64) : sizeOf env name ifMissing = .error e ↔
    ∃ value problem, Spoils (env name) value problem ∧ e = .byteCount name value problem := by
  simp only [Spoils, Text.exists_trims, ← ByteCount.parse_eq_error_iff]
  constructor
  · intro herror
    cases hset : env name with
    | none => cases herror.symm.trans (sizeOf_unset hset)
    | some value =>
      cases hparse : ByteCount.parse (Text.trim value.toList) with
      | ok m => cases herror.symm.trans (sizeOf_of_parse_ok hset hparse)
      | error problem =>
        cases herror.symm.trans (sizeOf_of_parse_error hset hparse)
        exact ⟨value, problem, ⟨rfl, hparse⟩, rfl⟩
  · rintro ⟨value, problem, ⟨hset, hparse⟩, rfl⟩
    exact sizeOf_of_parse_error hset hparse

/-- **Sizes from the environment.** There is a configuration just if each of the two variables that
    is set holds a byte count, and it has the sizes that they give. Otherwise the first one that
    does not is reported, with its value as it is and with what is wrong with it, in a text of its
    own for each of the three reasons. -/
theorem ofEnvironment_exact (env : String → Option String) :
    (∀ c, ofEnvironment env = .ok c ↔
      Gives (env "MSGC_ARENA_BYTES") (1024 * 1024) c.arenaBytes ∧
      Gives (env "MSGC_RESERVED_BYTES") 0 c.reservedBytes) ∧
    (∀ e, ofEnvironment env = .error e ↔
      (∃ value problem, Spoils (env "MSGC_ARENA_BYTES") value problem ∧
        e = .byteCount "MSGC_ARENA_BYTES" value problem) ∨
      (∃ n, Gives (env "MSGC_ARENA_BYTES") (1024 * 1024) n) ∧
        ∃ value problem, Spoils (env "MSGC_RESERVED_BYTES") value problem ∧
          e = .byteCount "MSGC_RESERVED_BYTES" value problem) ∧
    (∀ name value problem, (ConfigError.byteCount name value problem).toHeapError =
      .config (name ++ ": invalid byte count '" ++ value ++ "': " ++ problem.message)) ∧
    Function.Injective ByteCountProblem.message := by
  refine ⟨fun c => ?config, fun e => ?error, fun name value problem => rfl,
    ByteCountProblem.message_injective⟩
  case config =>
    rw [← sizeOf_eq_ok_iff, ← sizeOf_eq_ok_iff]
    exact sizes_eq_ok_iff
  case error =>
    simp only [← sizeOf_eq_ok_iff]
    rw [← sizeOf_eq_error_iff (1024 * 1024), ← sizeOf_eq_error_iff 0]
    exact sizes_eq_error_iff

end Config

end ArenaHeap
