import ArenaHeap.Config.ByteCount
import ArenaHeap.Log.Event
import ArenaHeap.Text.Alphanumeric
import ArenaHeap.Text.Blank
import ArenaHeap.Text.Pattern

namespace ArenaHeap.Log

/-!
# Directives

A directive sets the least level for the events of some targets, or for those among them that
have a field. It can also ask for a span, or for the value of a field, and is then for what
happens within spans.

Written out, a directive is a level, which is for all events, or a target with the parts
`[span{field=value}]` and `=level` behind it, each of which can be missing. Without a level all
events are admitted. An `Outline` says where the parts stand.
-/

/-- A field that is asked for. -/
structure FieldTest where
  name : String
  /-- What the value of the field has to be, if it matters. -/
  value : Option String := none
deriving DecidableEq, Repr

/-- One rule of a filter. -/
structure Directive where
  /-- How the targets begin that the directive is for. -/
  target : String := ""
  /-- The span that is asked for. -/
  span : Option String := none
  /-- The field that is asked for. -/
  field : Option FieldTest := none
  /-- The least level admitted; none if no event is. -/
  least : Option Level := some .trace
deriving DecidableEq, Repr

/-! ### Levels and fields -/

/-- Reads a least level: the name or the number of a level, or that of none. -/
def least? (text : String) : Option (Option Level) :=
  match ByteCount.parse text.toList with
  | .ok n =>
    if n = 0 then some none
    else (Level.all.find? fun level => level.breadth == n).map some
  | .error _ =>
    if text.toUpper == "OFF" then some none
    else (Level.ofName? text).map some

namespace FieldTest

/-- Whether a text is a number in decimal notation without a sign. -/
def isDecimal (text : String) : Bool :=
  let digits := text.toList.takeWhile Char.isDigit
  let rest := text.toList.dropWhile Char.isDigit
  let (decimals, rest) := match rest with
    | '.' :: rest => (rest.takeWhile Char.isDigit, rest.dropWhile Char.isDigit)
    | rest => ([], rest)
  let exponent := match rest with
    | [] => true
    | e :: '+' :: ds | e :: '-' :: ds | e :: ds =>
      (e == 'e' || e == 'E') && !ds.isEmpty && ds.all Char.isDigit
  (!digits.isEmpty || !decimals.isEmpty) && exponent ||
    ["inf", "infinity", "nan"].contains text.toLower

/-- Whether a value can be asked for: it is a pattern, or a number with a plus, which no pattern
    begins with. -/
def isValue (text : String) : Bool :=
  Text.isPattern text ||
    match text.toList with
    | '+' :: number => isDecimal (String.ofList number)
    | _ => false

/-- Reads a field, with its value behind an equals sign. A second equals sign ends the value. -/
def parse? (text : String) : Option FieldTest :=
  match text.splitOn "=" with
  | [] | [""] => none
  | [name] => some { name }
  | name :: value :: _ => if isValue value then some { name, value := some value } else none

end FieldTest

/-! ### Outlines -/

/-- A stretch of a text, in bytes from its start. -/
structure Stretch where
  start : Nat
  stop : Nat
deriving DecidableEq, Repr

namespace Stretch

/-- Reads up to one of some characters: the stretch before it, which begins at `start`, and the
    text from it on. -/
def upTo (ends : List Char) (start : Nat) (cs : List Char) : Stretch × List Char :=
  let part := cs.takeWhile (!ends.contains ·)
  (⟨start, start + part.foldl (fun n c => n + c.utf8Size) 0⟩, cs.dropWhile (!ends.contains ·))

/-- The text in a stretch; `none` if the stretch parts a character. -/
def cut? (s : Stretch) (text : String) : Option String :=
  String.fromUTF8? (text.toUTF8.extract s.start s.stop)

end Stretch

/-- Where the parts of a directive stand. -/
structure Outline where
  target : Stretch
  span : Option Stretch := none
  field : Option Stretch := none
  /-- Where the level begins, which goes on to the end. -/
  level : Option Nat := none
deriving DecidableEq, Repr

namespace Outline

/-- Reads what follows a bracket that closes: an equals sign and a level, or nothing. -/
def ending? (o : Outline) (start : Nat) : List Char → Option Outline
  | [] => some o
  | '=' :: _ => some { o with level := some (start + 1) }
  | _ => none

/-- Reads what follows a bracket that opens: a span, a field in braces, or both. -/
def brackets? (o : Outline) (start : Nat) (cs : List Char) : Option Outline :=
  match Stretch.upTo [']', '{'] start cs with
  | (span, ']' :: rest) => { o with span := some span }.ending? (span.stop + 1) rest
  | (span, '{' :: rest) =>
    match Stretch.upTo ['}'] (span.stop + 1) rest with
    | (field, '}' :: ']' :: rest) =>
      let span := if span.start = span.stop then none else some span
      { o with span, field := some field }.ending? (field.stop + 2) rest
    | _ => none
  | _ => none

/-- Reads the outline of a directive with a target. A word alone has the outline of a target. -/
def of? (cs : List Char) : Option Outline :=
  match Stretch.upTo ['[', '='] 0 cs with
  | (target, []) => some { target }
  | (target, '[' :: rest) => { target : Outline }.brackets? (target.stop + 1) rest
  | (target, rest) => { target : Outline }.ending? target.stop rest

end Outline

namespace Directive

/-- Whether a directive can begin with a character. -/
def isInitial (c : Char) : Bool := ['-', ':', '_', '['].contains c || Text.isAlphanumeric c

/-- Reads a directive. Its outline is that of the text without the white space at both ends, but
    the parts are taken from the whole text, at the same places: white space at the start moves
    them all, and white space at the end belongs to the last one. -/
def parse? (text : String) : Option Directive := do
  let inner := Text.trim text.toList
  guard (inner.head?.any isInitial)
  match ← Outline.of? inner with
  | { span := none, field := none, level := none, .. } =>
    -- A word alone is a level if it can be one, and a target otherwise.
    return match least? text with
      | some least => { least }
      | none => { target := text }
  | outline =>
    let target ← outline.target.cut? text
    let span ← outline.span.mapM (·.cut? text)
    let field ← outline.field.mapM fun field => do FieldTest.parse? (← field.cut? text)
    let least ← match outline.level with
      | none => some (some Level.trace)
      | some start => do
        let level ← Stretch.cut? ⟨start, text.utf8ByteSize⟩ text
        if level.isEmpty then some (some Level.trace) else least? level
    return { target, span, field, least }

/-- Whether a directive is for events outside spans. -/
def isForEvents (d : Directive) : Bool := d.span.isNone && d.field.all (·.value.isNone)

/-- Whether a directive is for an event. The library enters no spans, so one that is for what
    happens within them fits no event. -/
def fits (d : Directive) (e : Event) : Bool :=
  d.isForEvents && d.target.toList.isPrefixOf e.target.toList &&
    d.field.all fun field => e.fieldNames.contains field.name

/-- The name of the field that is asked for; empty if none is. -/
def fieldName (d : Directive) : String := (d.field.map (·.name)).getD ""

/-- Whether a directive decides before another one that fits the same event: its target is
    longer, or it is the same and the field is not less. Any field is more than none. -/
def prevails (d other : Directive) : Bool :=
  other.target.length < d.target.length ||
    other.target.length == d.target.length && other.fieldName ≤ d.fieldName

end Directive

end ArenaHeap.Log
