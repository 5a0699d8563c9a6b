import ArenaHeap.Toml.Codec
import Mathlib

namespace ArenaHeap.Toml

/-!
# Documents that define numbers

The grammar of TOML 1.0, as far as natural numbers need it, said without a reader.

A natural number is written in decimal digits without a leading zero. Underscores may part the
digits, and a plus may stand in front; zero may also have a minus. In a document of numbers every
line defines one under a key, or says nothing. The key may stand in quotes, there may be blanks
between all parts of a line and a comment behind them, and lines end as on any system; the last one
need not end at all.

* `Decimal`, `Written` — the ways to write a number; `decimal_toDigits` is the usual one.
* `Defines` — the documents, with what they define; `defines_lines` is one of them for any numbers.
-/

variable {n : Nat} {c : Char} {ds : List Char} {defs : List (String × Nat)}

/-! ### Ways to write a number -/

/-- Digits behind a first one; an underscore may stand in front of each. -/
inductive Grouped : (ds cs : List Char) → Prop
  | nil : Grouped [] []
  | digit {c : Char} {ds cs : List Char} : c.isDigit = true → Grouped ds cs →
      Grouped (c :: ds) (c :: cs)
  | parted {c : Char} {ds cs : List Char} : c.isDigit = true → Grouped ds cs →
      Grouped (c :: ds) ('_' :: c :: cs)

/-- A number in digits, the first of which is zero only if it is the only one. -/
inductive Decimal : (n : Nat) → (cs : List Char) → Prop
  | zero : Decimal 0 ['0']
  | digits {n : Nat} {c : Char} {ds cs : List Char} : c.isDigit = true → c ≠ '0' →
      Grouped ds cs → Nat.ofDigitChars 10 (c :: ds) 0 = n → Decimal n (c :: cs)

/-- A number with a sign or without one. -/
inductive Written : (n : Nat) → (cs : List Char) → Prop
  | plain {n : Nat} {cs : List Char} : Decimal n cs → Written n cs
  | plus {n : Nat} {cs : List Char} : Decimal n cs → Written n ('+' :: cs)
  | minusZero : Written 0 ['-', '0']

theorem Grouped.of_digits (hds : ∀ c ∈ ds, c.isDigit = true) : Grouped ds ds := by
  induction ds with
  | nil => exact .nil
  | cons c ds ih =>
    obtain ⟨hc, hds⟩ := List.forall_mem_cons.1 hds
    exact .digit hc (ih hds)

theorem head?_toDigits_ne_zero (hn : 0 < n) : (Nat.toDigits 10 n).head? ≠ some '0' := by
  induction n using Nat.strong_induction_on with
  | _ n ih =>
    by_cases hlt : n < 10
    · rw [Nat.toDigits_of_lt_base hlt, List.head?_cons, Ne, Option.some.injEq,
        Nat.digitChar_eq_zero]
      omega
    · -- The first digit is that of the tenth part.
      have hpos : 0 < n / 10 := by omega
      rw [Nat.toDigits_of_base_le (by decide) (by omega),
        List.head?_append_of_ne_nil _ Nat.toDigits_ne_nil]
      exact ih _ (by omega) hpos

/-- The usual digits of a number write it. -/
theorem decimal_toDigits (n : Nat) : Decimal n (Nat.toDigits 10 n) := by
  rcases Nat.eq_zero_or_pos n with rfl | hn
  · exact .zero
  · have hvalue := Nat.ofDigitChars_ten_toDigits (n := n)
    have hdigits : ∀ c ∈ Nat.toDigits 10 n, c.isDigit = true :=
      fun c => Nat.isDigit_of_mem_toDigits (by decide) (by decide)
    have hhead := head?_toDigits_ne_zero hn
    cases hds : Nat.toDigits 10 n with
    | nil => exact absurd hds Nat.toDigits_ne_nil
    | cons c ds =>
      rw [hds] at hvalue hdigits hhead
      obtain ⟨hc, hrest⟩ := List.forall_mem_cons.1 hdigits
      have hzero : c ≠ '0' := fun h => hhead (congrArg some h)
      exact .digits hc hzero (.of_digits hrest) hvalue

/-! ### The documents -/

/-- White space within a line, or none. -/
def Blanks (cs : List Char) : Prop := ∀ c ∈ cs, isBlank c = true

/-- What says nothing: blanks, and a comment behind them or none. -/
inductive Idle : (cs : List Char) → Prop
  | blanks {cs : List Char} : Blanks cs → Idle cs
  | comment {cs text : List Char} : Blanks cs → (∀ c ∈ text, isText c = true) →
      Idle (cs ++ '#' :: text)

/-- A line ends, and the rest of the document follows. -/
inductive LineEnd : (cs rest : List Char) → Prop
  | feed {rest : List Char} : LineEnd ('\n' :: rest) rest
  | returnFeed {rest : List Char} : LineEnd ('\r' :: '\n' :: rest) rest
  | last : LineEnd [] []

/-- A key that may stand without quotes. -/
def Bare (key : String) : Prop := key.toList ≠ [] ∧ ∀ c ∈ key.toList, isBare c = true

/-- A character that stands for itself between double quotes. -/
def isPlain (c : Char) : Bool := isText c && c != '"' && c != '\\'

/-- A key without quotes or in quotes of either kind, where no character is escaped. -/
inductive Spelled (key : String) : (cs : List Char) → Prop
  | bare : Bare key → Spelled key key.toList
  | quoted : (∀ c ∈ key.toList, isPlain c = true) → Spelled key ('"' :: (key.toList ++ ['"']))
  | literal : (∀ c ∈ key.toList, isLiteral c = true) → Spelled key ('\'' :: (key.toList ++ ['\'']))

/-- What defines a number under a key. -/
inductive Definition (key : String) (n : Nat) : (cs : List Char) → Prop
  | mk {indent name left right number after : List Char} : Blanks indent → Spelled key name →
      Blanks left → Blanks right → Written n number → Idle after →
      Definition key n (indent ++ (name ++ (left ++ '=' :: (right ++ (number ++ after)))))

/-- The numbers that the lines of a document define under their keys. -/
inductive Defines : (defs : List (String × Nat)) → (cs : List Char) → Prop
  | nil : Defines [] []
  | idle {defs : List (String × Nat)} {cs tail rest : List Char} : Idle cs → LineEnd tail rest →
      Defines defs rest → Defines defs (cs ++ tail)
  | definition {key : String} {n : Nat} {defs : List (String × Nat)} {cs tail rest : List Char} :
      Definition key n cs → LineEnd tail rest → Defines defs rest →
      Defines ((key, n) :: defs) (cs ++ tail)

theorem defines_lines (hdefs : ∀ d ∈ defs, Bare d.1) : Defines defs (Document.lines defs) := by
  induction defs with
  | nil => exact .nil
  | cons d defs ih =>
    obtain ⟨key, n⟩ := d
    obtain ⟨hkey, hdefs⟩ := List.forall_mem_cons.1 hdefs
    have hnone : Blanks [] := nofun
    have hspace : Blanks [' '] := List.forall_mem_singleton.2 rfl
    have hdef := Definition.mk hnone (.bare hkey) hspace hspace (.plain (decimal_toDigits n))
      (.blanks hnone)
    have hline : [] ++ (key.toList ++ ([' '] ++ '=' :: ([' '] ++ (Nat.toDigits 10 n ++ [])))) =
        key.toList ++ [' ', '=', ' '] ++ Nat.toDigits 10 n := by
      simp
    rw [hline] at hdef
    exact .definition hdef .feed (ih hdefs)

end ArenaHeap.Toml
