import PiecewiseNet.Json.Number
import PiecewiseNet.Text.Scan

/-!
# Reading JSON

A text is read only as deep as is asked for: a value is first split off as a text of its own, and an
object or an array into the texts of its parts. What nobody asks for needs to be well formed, but
its numbers may be too large and its strings may hold halves of surrogate pairs.

## Main definitions

- `Raw`: the text of one well-formed value.
- `document?`: the value that a text holds.
- `Raw.isNull`, `Raw.boolean?`, `Raw.number?`, `Raw.text?`: what a scalar is.
- `Raw.elements?`, `Raw.members?`: the parts of an array or an object.
- `Raw.choice?`, `Raw.fields?`: a name among given ones, and the fields of a record.
-/

namespace PiecewiseNet.Json

open Text Scan

/-- The text of one well-formed value without white space around it. -/
abbrev Raw := List Char

/-- White space. -/
def isSpace (c : Char) : Bool :=
  c == ' ' || c == '\n' || c == '\t' || c == '\r'

/-- Drops white space in front. -/
def skipSpace : Scan Unit := do
  let _ ← span isSpace
  return ()

/-! ## Strings -/

/-- The second half of a surrogate pair, written as an escape. -/
def scanSecondHalf (first : Nat) : Scan Char := do
  exactly ['\\', 'u']
  let second ← hexNumber 0 4
  if 0xDC00 ≤ second ∧ second ≤ 0xDFFF then
    ofCodePoint (0x10000 + 0x400 * (first - 0xD800) + (second - 0xDC00))
  else
    failure

/-- The character of an escape with a code; a pair of escapes makes one character outside the first
plane. Unless the string is asked for, any code will do and nothing is made of it. -/
def scanCode (asked : Bool) : Scan (List Char) := do
  let n ← hexNumber 0 4
  if !asked then
    return []
  else if 0xD800 ≤ n ∧ n ≤ 0xDBFF then
    return [← scanSecondHalf n]
  else
    return [← ofCodePoint n]

/-- The character that an escape stands for; the backslash is read. -/
def scanEscape (asked : Bool) : Scan (List Char) := do
  match ← next with
  | '"' => return ['"']
  | '\\' => return ['\\']
  | '/' => return ['/']
  | 'b' => return ['\x08']
  | 'f' => return ['\x0c']
  | 'n' => return ['\n']
  | 'r' => return ['\r']
  | 't' => return ['\t']
  | 'u' => scanCode asked
  | _ => failure

/-- One character of a string, or the closing quote. -/
def scanPiece (asked : Bool) : Scan (Option (List Char)) := do
  let c ← next
  if c == '"' then
    return none
  else if c == '\\' then
    return some (← scanEscape asked)
  else if c < ' ' then
    failure
  else
    return some [c]

/-- A string in double quotes. -/
def scanString (asked : Bool) : Scan String := do
  exactly ['"']
  let pieces ← many (scanPiece asked)
  return String.ofList pieces.flatten

/-! ## Numbers -/

/-- Decimal digits. -/
def scanDigits : Scan (List Nat) := do
  let digits ← span Char.isDigit
  return digits.map fun c => c.toNat - '0'.toNat

/-- At least one decimal digit. -/
def scanSomeDigits : Scan (List Nat) := do
  let digits ← scanDigits
  if digits.isEmpty then failure else return digits

/-- The digits in front of the point; a zero stands alone. -/
def scanWhole : Scan (List Nat) := do
  if ← accept ['0'] then return [0] else scanSomeDigits

/-- The point and the digits behind it, if there are any. -/
def scanPlaces : Scan (List Nat) := do
  if ← accept ['.'] then scanSomeDigits else return []

/-- The exponent, if there is one. -/
def scanExponent : Scan (Option Int) := do
  match ← peek with
  | some 'e' | some 'E' =>
    let _ ← next
    let negative ← accept ['-']
    if !negative then
      let _ ← accept ['+']
    let digits ← scanSomeDigits
    let n : Nat := digits.foldl (fun n d => 10 * n + d) 0
    return some (if negative then -(n : Int) else n)
  | _ => return none

/-- A number. -/
def scanNumber : Scan NumberParts := do
  let negative ← accept ['-']
  let whole ← scanWhole
  let places ← scanPlaces
  let exponent ← scanExponent
  return { negative, whole, places, exponent }

/-! ## Values -/

/-- The separator behind a part, else the closing character. -/
def scanSeparator (close : Char) : Scan Bool := do
  skipSpace
  if ← accept [','] then
    skipSpace
    return false
  else
    exactly [close]
    return true

/-- The parts between brackets; the opening one is read. -/
def scanParts {β : Type} (close : Char) (part : Scan β) : Scan (List β) := do
  skipSpace
  if ← accept [close] then
    return []
  else
    someUntil part (scanSeparator close)

/-- The name in front of a member, with the colon behind it. -/
def scanName (asked : Bool) : Scan String := do
  let name ← scanString asked
  skipSpace
  exactly [':']
  skipSpace
  return name

/-- Passes over a value with at most so many brackets and braces around any of its parts. -/
def skipValue : Nat → Scan Unit
  | 0 => failure
  | depth + 1 => do
    match ← peek with
    | some '"' =>
      let _ ← scanString false
    | some 't' => exactly "true".toList
    | some 'f' => exactly "false".toList
    | some 'n' => exactly "null".toList
    | some '[' =>
      let _ ← next
      let _ ← scanParts ']' (skipValue depth)
    | some '\x7b' =>
      let _ ← next
      let _ ← scanParts '\x7d' (do let _ ← scanName false; skipValue depth)
    | _ =>
      let _ ← scanNumber

/-- Splits off a value. Nesting cannot be deeper than the text is long. -/
def scanRaw : Scan Raw := do
  -- What is gone from the text ahead is the text of the value.
  let before ← get
  skipValue (before.length + 1)
  let after ← get
  return before.take (before.length - after.length)

/-- The value that a text holds, with white space around it at most. -/
def document? (s : String) : Option Raw :=
  whole (do skipSpace; let r ← scanRaw; skipSpace; return r) s.toList

namespace Raw

/-- The value is nothing. -/
def isNull (r : Raw) : Bool :=
  r == "null".toList

/-- The truth value that a value is. -/
def boolean? (r : Raw) : Option Bool :=
  if r == "true".toList then some true
  else if r == "false".toList then some false
  else none

/-- The number that a value is. -/
def number? (r : Raw) : Option Number :=
  whole scanNumber r >>= NumberParts.number?

/-- The floating-point number that a value is. -/
def float? (r : Raw) : Option Float :=
  r.number?.map Number.toFloat

/-- The index that a value is. -/
def index? (r : Raw) : Option Nat :=
  r.number? >>= Number.index?

/-- The string that a value is. -/
def text? (r : Raw) : Option String :=
  whole (scanString true) r

/-- The elements of an array. -/
def elements? (r : Raw) : Option (List Raw) :=
  whole (do exactly ['[']; scanParts ']' scanRaw) r

/-- The members of an object. -/
def members? (r : Raw) : Option (List (String × Raw)) :=
  whole
    (do
      exactly ['\x7b']
      scanParts '\x7d' (do let name ← scanName true; let v ← scanRaw; return (name, v)))
    r

/-- The choice that a value names: by a string, or by an object that holds nothing under that
name. -/
def choice? {β : Type} (choices : List (String × β)) (r : Raw) : Option β :=
  match r.text? with
  | some name => choices.lookup name
  | none =>
    match r.members? with
    | some [(name, v)] => if isNull v then choices.lookup name else none
    | _ => none

/-- The one member with a name, if there is one; two of them are refused. -/
def member? (members : List (String × Raw)) (name : String) : Option (Option Raw) :=
  match members.filter (·.1 == name) with
  | [] => some none
  | [m] => some (some m.2)
  | _ => none

/-- The fields of a record, in the order of their names: the members of an object, or the elements
of an array in that order. Members with other names are passed over. An array may stop early only if
`mayStop` says so. -/
def fields? (names : List String) (mayStop : Bool) (r : Raw) : Option (List (Option Raw)) :=
  match r.members?, r.elements? with
  | some members, _ => names.mapM (member? members)
  | none, some elements =>
    if elements.length = names.length ∨ (mayStop ∧ elements.length < names.length) then
      some ((List.range names.length).map (elements[·]?))
    else
      none
  | none, none => none

end Raw

end PiecewiseNet.Json
