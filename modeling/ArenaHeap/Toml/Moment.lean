import ArenaHeap.Toml.Scan

namespace ArenaHeap.Toml

/-!
# Dates and times

A date, a time of day, or both, the latter also with an offset. Only the extent is found; that
the numbers make a date of the calendar and a time of the clock is checked.
-/

/-- Reads a number of exactly two digits that is at most `most`. -/
def twoDigits? (most : Nat) : List Char → Option (Nat × List Char)
  | c :: d :: cs =>
    if c.isDigit && d.isDigit then
      let n := (c.toNat - '0'.toNat) * 10 + (d.toNat - '0'.toNat)
      if n ≤ most then some (n, cs) else none
    else none
  | _ => none

/-- Passes over one character. -/
def expect? (c : Char) : List Char → Option (List Char)
  | d :: cs => if c = d then some cs else none
  | [] => none

/-- The days of a month. -/
def daysIn (year month : Nat) : Nat :=
  if month = 2 then
    if year % 4 = 0 ∧ (year % 100 ≠ 0 ∨ year % 400 = 0) then 29 else 28
  else if month = 4 ∨ month = 6 ∨ month = 9 ∨ month = 11 then 30
  else 31

/-- Passes over a date. -/
def skipDate? (cs : List Char) : Option (List Char) := do
  let (century, cs) ← twoDigits? 99 cs
  let (year, cs) ← twoDigits? 99 cs
  let cs ← expect? '-' cs
  let (month, cs) ← twoDigits? 12 cs
  let cs ← expect? '-' cs
  let (day, cs) ← twoDigits? (daysIn (century * 100 + year) month) cs
  if 1 ≤ month ∧ 1 ≤ day then return cs else none

/-- Passes over a time of day. -/
def skipTime? (cs : List Char) : Option (List Char) := do
  let (_, cs) ← twoDigits? 23 cs
  let cs ← expect? ':' cs
  let (_, cs) ← twoDigits? 59 cs
  let cs ← expect? ':' cs
  -- A minute may have a leap second.
  let (_, cs) ← twoDigits? 60 cs
  match cs with
  | '.' :: c :: cs => if c.isDigit then return cs.dropWhile Char.isDigit else none
  | '.' :: [] => none
  | cs => return cs

/-- Passes over an offset, if there is one. -/
def skipOffset? : List Char → Option (List Char)
  | [] => some []
  | c :: cs =>
    if c = 'Z' ∨ c = 'z' then some cs
    else if c = '+' ∨ c = '-' then do
      let (_, cs) ← twoDigits? 23 cs
      let cs ← expect? ':' cs
      let (_, cs) ← twoDigits? 59 cs
      return cs
    else some (c :: cs)

/-- Whether a time of day begins here: two digits and a colon. -/
def startsTime (cs : List Char) : Bool :=
  match cs with
  | c :: d :: ':' :: _ => c.isDigit && d.isDigit
  | _ => false

/-- Whether a date begins here: four digits and a dash. -/
def startsDate (cs : List Char) : Bool :=
  match cs with
  | a :: b :: c :: d :: '-' :: _ => a.isDigit && b.isDigit && c.isDigit && d.isDigit
  | _ => false

/-- Passes over a date and over the time that may follow it. -/
def skipMoment? (cs : List Char) : Option (List Char) := do
  let cs ← skipDate? cs
  match cs with
  | c :: rest =>
    if (c = 'T' ∨ c = 't' ∨ c = ' ') ∧ startsTime rest then
      skipOffset? (← skipTime? rest)
    else return cs
  | [] => return []

end ArenaHeap.Toml
