namespace ArenaHeap.Text

/-!
# Patterns

Whether a text without braces and commas is a regular expression. A pattern is read from left to
right, one step for each character, and may end between two items when all its groups and classes
are closed. Patterns know no classes by name, such as the digits or the characters of words, nor
the ends of words, nor letters regardless of case, so the marks for these are refused.
-/

namespace Pattern

/-- What a reader of a pattern is at. -/
inductive Place where
  /-- An item; whether what was read last can be repeated. -/
  | item (repeatable : Bool)
  /-- The character behind a backslash. -/
  | escape
  /-- The code of a character, of which some hexadecimal digits are to come. -/
  | code (digits : Nat)
  /-- The first character of a group. -/
  | group
  /-- The characters behind the question mark of a group; whether one of them was a flag. -/
  | flags (flagged : Bool)
  /-- The bracket before the name of a group. -/
  | bracket
  /-- The name of a group; whether it has begun. -/
  | name (begun : Bool)
  /-- The first character of a class; whether the class can still be negated. -/
  | classStart (negatable : Bool)
  /-- A member of a class; the one before it, if a range can begin with that. -/
  | member (before : Option Char)
  /-- The last character of a range. -/
  | rangeEnd (first : Char)
deriving DecidableEq, Repr

/-- How far a pattern has been read. -/
structure Progress where
  place : Place := .item false
  /-- How many groups are open. -/
  groups : Nat := 0
  /-- How many classes are open, one within the other. -/
  classes : Nat := 0
deriving DecidableEq, Repr

/-- Whether a backslash and a character stand for a character. -/
def isEscapable (c : Char) : Bool :=
  (c.toNat < 0x80 && !c.isAlphanum && c != '<' && c != '>') ||
    ['a', 'f', 't', 'n', 'r', 'v'].contains c

/-- How many hexadecimal digits follow a letter that announces the code of a character. -/
def codeDigits? (c : Char) : Option Nat :=
  match c with
  | 'x' => some 2
  | 'u' => some 4
  | 'U' => some 8
  | _ => none

/-- Whether a character is a hexadecimal digit. -/
def isHexDigit (c : Char) : Bool :=
  c.isDigit || ('a' ≤ c && c ≤ 'f') || ('A' ≤ c && c ≤ 'F')

namespace Progress

/-- Goes on to a place. -/
def goTo (p : Progress) (place : Place) : Progress := { p with place }

/-- Goes on behind an item or a member of a class. -/
def behind (p : Progress) : Progress := p.goTo (if p.classes = 0 then .item true else .member none)

/-- Goes on behind a class. -/
def behindClass (p : Progress) : Progress := { p with classes := p.classes - 1 }.behind

/-- Closes a group, which can be repeated or not. -/
def close? (p : Progress) (repeatable : Bool) : Option Progress :=
  if p.groups = 0 then none
  else some { p with place := .item repeatable, groups := p.groups - 1 }

/-- Reads the first character of an item. -/
def item? (p : Progress) (repeatable : Bool) (c : Char) : Option Progress :=
  match c with
  | '\\' => some (p.goTo .escape)
  | '(' => some { p with place := .group, groups := p.groups + 1 }
  | ')' => p.close? true
  | '[' => some { p with place := .classStart true, classes := 1 }
  | '|' => some (p.goTo (.item false))
  | '*' | '+' | '?' => if repeatable then some p else none
  -- A brace opens a count, which would need a brace to close it.
  | '{' => none
  | _ => some p.behind

/-- Reads the character behind a backslash. Outside classes it may mark an end of the text. -/
def escape? (p : Progress) (c : Char) : Option Progress :=
  match codeDigits? c with
  | some digits => some (p.goTo (.code digits))
  | none =>
    if isEscapable c || (p.classes = 0 && (c == 'A' || c == 'z')) then some p.behind else none

/-- Reads the first character of a member of a class. -/
def member (p : Progress) (before : Option Char) (c : Char) : Progress :=
  match c, before with
  | '\\', _ => p.goTo .escape
  | '[', _ => { p with place := .classStart true, classes := p.classes + 1 }
  | ']', _ => p.behindClass
  | '-', some first => p.goTo (.rangeEnd first)
  | c, _ => p.goTo (.member (some c))

/-- Reads a character; `none` if no pattern goes on with it. -/
def step? (p : Progress) (c : Char) : Option Progress :=
  match p.place with
  | .item repeatable => p.item? repeatable c
  | .escape => p.escape? c
  | .code digits =>
    if !isHexDigit c then none
    else some (if digits ≤ 1 then p.behind else p.goTo (.code (digits - 1)))
  | .group => if c == '?' then some (p.goTo (.flags false)) else p.item? false c
  | .flags flagged =>
    if c == ':' then some (p.goTo (.item false))
    else if ['m', 's', 'U', 'u', 'x', 'R', '-'].contains c then some (p.goTo (.flags true))
    else if flagged then if c == ')' then p.close? false else none
    else if c == 'P' then some (p.goTo .bracket)
    else if c == '<' then some (p.goTo (.name false))
    else none
  | .bracket => if c == '<' then some (p.goTo (.name false)) else none
  | .name begun =>
    if c.isAlpha || c == '_' || (begun && (c.isDigit || ['.', '[', ']'].contains c)) then
      some (p.goTo (.name true))
    else if begun && c == '>' then some (p.goTo (.item false))
    else none
  | .classStart negatable =>
    if negatable && c == '^' then some (p.goTo (.classStart false))
    else if c == '-' then some (p.goTo (.classStart false))
    else if c == ']' then some (p.goTo (.member none))
    else some (p.member none c)
  | .member before => some (p.member before c)
  | .rangeEnd first =>
    if c == '\\' then some (p.goTo .escape)
    else if c == ']' then some p.behindClass
    else if c == '-' || first ≤ c then some (p.goTo (.member none))
    else none

/-- Whether a pattern may end. -/
def isComplete (p : Progress) : Bool :=
  p.groups = 0 && (match p.place with
    | .item _ => true
    | _ => false)

end Progress

end Pattern

/-- Whether a text is a pattern. -/
def isPattern (text : String) : Bool :=
  (text.toList.foldlM Pattern.Progress.step? {}).any (·.isComplete)

/-- Patterns may be empty and may have groups, classes and repetitions, all of them closed. -/
example : (["", "gc_.*", "a|(?:b+)?", "[^]a-z-]", "\\x41\\."].all isPattern) = true := by
  decide +kernel

/-- Nothing to repeat, an end that is missing or not announced, a range backwards, and a class
    by name make no pattern. -/
example : (["*", "(a", "a)", "[a", "a\x7b2", "[z-a]", "\\d", "\\"].any isPattern) = false := by
  decide +kernel

end ArenaHeap.Text
