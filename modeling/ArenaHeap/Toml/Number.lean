import ArenaHeap.Toml.Scan

namespace ArenaHeap.Toml

/-!
# Numbers

Integers in base ten, sixteen, eight or two, and floats. An integer has to fit 64 bits with a
sign. Of a float only its validity matters: one too large for the largest double is refused, with
the exception of negative ones, which count as negative infinity.
-/

/-- The value of a digit in a base up to sixteen. -/
def digit? (base : Nat) (c : Char) : Option Nat := (hexDigit? c).filter (· < base)

/-- Reads digits on top of the number `n`, of which `count` digits were read. An underscore may
    stand between two digits. -/
def moreDigits? (base : Nat) (n count : Nat) : List Char → Option ((Nat × Nat) × List Char)
  | [] => some ((n, count), [])
  | '_' :: c :: cs => do moreDigits? base (n * base + (← digit? base c)) (count + 1) cs
  | '_' :: [] => none
  | c :: cs =>
    match digit? base c with
    | some d => moreDigits? base (n * base + d) (count + 1) cs
    | none => some ((n, count), c :: cs)

/-- Reads one digit or more: their value and their number. -/
def digits? (base : Nat) : List Char → Option ((Nat × Nat) × List Char)
  | [] => none
  | c :: cs => do moreDigits? base (← digit? base c) 1 cs

/-- Reads digits without a leading zero. -/
def plainDigits? : List Char → Option (Nat × List Char)
  | '0' :: cs => some (0, cs)
  | cs => (digits? 10 cs).map fun ((n, _), cs) => (n, cs)

/-- Reads a sign, if there is one: whether it is a minus. -/
def sign : List Char → Bool × List Char
  | '-' :: cs => (true, cs)
  | '+' :: cs => (false, cs)
  | cs => (false, cs)

/-- The integers that a document can hold. -/
def fitsInt64 (n : Int) : Bool := Int64.minValue.toInt ≤ n && n ≤ Int64.maxValue.toInt

/-- Whether `mantissa * 10 ^ exponent` rounds to a finite double. -/
def isFinite (mantissa : Nat) (exponent : Int) : Bool :=
  -- Halfway between the largest double and the power of two above it.
  let bound := 1 <<< 1024 - 1 <<< 970
  let length := (Nat.toDigits 10 mantissa).length
  -- Far from the bound the number of digits decides, so no power grows with the exponent.
  if mantissa = 0 then true
  else if 310 < exponent + length then false
  else if 0 ≤ exponent then mantissa * Nat.pow 10 exponent.toNat < bound
  else if exponent + length < 300 then true
  else mantissa < bound * Nat.pow 10 (-exponent).toNat

/-- A number as read. -/
inductive Number where
  | integer (n : Int)
  | float
deriving DecidableEq, Repr

/-- Reads the exponent of a float behind its letter. -/
def exponent? (cs : List Char) : Option (Int × List Char) := do
  let (negative, cs) := sign cs
  let ((n, _), cs) ← digits? 10 cs
  return (if negative then -n else n, cs)

/-- Reads what follows the digits in front of the point, if that makes a float. -/
def fraction? (negative : Bool) (whole : Nat) (cs : List Char) :
    Option (Number × List Char) := do
  let ((mantissa, places), cs) ← match cs with
    | '.' :: cs => do
      let ((n, places), cs) ← digits? 10 cs
      pure ((whole * Nat.pow 10 places + n, places), cs)
    | cs => pure ((whole, 0), cs)
  let (exponent, cs) ← match cs with
    | 'e' :: cs => exponent? cs
    | 'E' :: cs => exponent? cs
    | cs => pure (0, cs)
  if negative || isFinite mantissa (exponent - places) then return (.float, cs) else none

/-- Reads digits of a base that a prefix announced. -/
def based? (base : Nat) (cs : List Char) : Option (Number × List Char) := do
  let ((n, _), cs) ← digits? base cs
  if fitsInt64 n then return (.integer n, cs) else none

/-- Reads a number. -/
def number? (cs : List Char) : Option (Number × List Char) :=
  match cs with
  | '0' :: 'x' :: cs => based? 16 cs
  | '0' :: 'o' :: cs => based? 8 cs
  | '0' :: 'b' :: cs => based? 2 cs
  | cs =>
    match sign cs with
    | (_, 'i' :: 'n' :: 'f' :: cs) => some (.float, cs)
    | (_, 'n' :: 'a' :: 'n' :: cs) => some (.float, cs)
    | (negative, cs) => do
      let (n, cs) ← plainDigits? cs
      let signed : Int := if negative then -n else n
      match cs with
      | '.' :: _ => fraction? negative n cs
      | 'e' :: _ => fraction? negative n cs
      | 'E' :: _ => fraction? negative n cs
      | _ => if fitsInt64 signed then return (.integer signed, cs) else none

end ArenaHeap.Toml
