namespace ArenaHeap

/-!
# Byte counts

A byte count is an optional plus and decimal digits, and fits 64 bits. Reading goes from left to
right and reports the first problem met: a character that is no digit, or a digit that takes the
number over the limit.
-/

/-- Why a text is no byte count. -/
inductive ByteCountProblem where
  | empty
  | invalidDigit
  | tooLarge
deriving DecidableEq, Repr

namespace ByteCountProblem

/-- The text of a problem. -/
def message : ByteCountProblem → String
  | empty => "cannot parse integer from empty string"
  | invalidDigit => "invalid digit found in string"
  | tooLarge => "number too large to fit in target type"

end ByteCountProblem

namespace ByteCount

/-- Byte counts are below this. -/
def limit : Nat := 1 <<< 64

/-- The value of a decimal digit. -/
def digit? (c : Char) : Option Nat :=
  if c.isDigit then some (c.toNat - '0'.toNat) else none

/-- Reads digits on top of the number `n`. -/
def ofDigits (n : Nat) : List Char → Except ByteCountProblem Nat
  | [] => .ok n
  | c :: cs =>
    match digit? c with
    | none => .error .invalidDigit
    | some d => if n * 10 + d < limit then ofDigits (n * 10 + d) cs else .error .tooLarge

/-- Reads a byte count. -/
def parse : List Char → Except ByteCountProblem Nat
  | [] => .error .empty
  | ['+'] => .error .invalidDigit
  | '+' :: cs => ofDigits 0 cs
  | cs => ofDigits 0 cs

end ByteCount

end ArenaHeap
