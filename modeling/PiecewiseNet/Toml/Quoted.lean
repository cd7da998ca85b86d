import PiecewiseNet.Text.Scan

/-!
# Quoted strings

A string stands in double quotes, where a backslash escapes, or in single quotes, where nothing
does. Three quotes in place of one let it run over several lines.

## Main definitions

- `isText`: the characters that may stand for themselves.
- `scanKeyString`: reads a string on one line.
- `scanString`: reads a string of any form.
- `Form.ofText`: the form in which a string is written.
- `quote`: writes a string.

## Design notes

A string is written in the first of these forms that shows all its characters as they are: double
quotes, single quotes, three double quotes, three single quotes. If none does, characters are
escaped.
-/

namespace PiecewiseNet.Toml

open Text Scan

/-- A character that may stand for itself: no control character but the tab. -/
def isText (c : Char) : Bool :=
  c == '\t' || (' ' ≤ c && c != '\x7f')

/-! ## Reading -/

/-- A line end: a line feed, or a carriage return and a line feed. -/
def acceptNewline : Scan Bool := do
  if ← accept ['\n'] then return true else accept ['\r', '\n']

/-- Drops spaces, tabs and line ends. -/
def dropLineSpace : List Char → List Char
  | '\r' :: '\n' :: r => dropLineSpace r
  | c :: r => if c == ' ' || c == '\t' || c == '\n' then dropLineSpace r else c :: r
  | [] => []

/-- The character that an escape stands for; the backslash is read. -/
def scanEscape : Scan Char := do
  match ← next with
  | 'b' => return '\x08'
  | 't' => return '\t'
  | 'n' => return '\n'
  | 'f' => return '\x0c'
  | 'r' => return '\r'
  | '"' => return '"'
  | '\\' => return '\\'
  | 'u' => ofCodePoint (← hexNumber 0 4)
  | 'U' => ofCodePoint (← hexNumber 0 8)
  | _ => failure

/-- A line end behind a backslash, with the blanks before it and all white space after it. -/
def scanContinuation : Scan (List Char) := do
  let _ ← span fun c => c == ' ' || c == '\t'
  if ← acceptNewline then
    modify dropLineSpace
    return []
  else
    failure

/-- One character of a string on one line, or the closing quote. -/
def scanLinePiece (quote : Char) : Scan (Option (List Char)) := do
  let c ← next
  if c == quote then
    return none
  else if quote == '"' && c == '\\' then
    return some [← scanEscape]
  else if isText c then
    return some [c]
  else
    failure

/-- One character of a string over several lines, a run of quotes inside it, or none before the
last run of quotes. -/
def scanBlockPiece (quote : Char) : Scan (Option (List Char)) := do
  let quotes ← span (· == quote)
  -- Three quotes or more end the string, though the first of them may belong to it.
  if 3 ≤ quotes.length then
    set (quotes ++ (← get))
    return none
  else if !quotes.isEmpty then
    return some quotes
  else if ← acceptNewline then
    return some ['\n']
  else
    let c ← next
    if quote == '"' && c == '\\' then
      let r ← scanContinuation <|> ([·]) <$> scanEscape
      return some r
    else if isText c then
      return some [c]
    else
      failure

/-- A string on one line; the opening quote is read. -/
def scanLine (quote : Char) : Scan String := do
  let pieces ← many (scanLinePiece quote)
  return String.ofList pieces.flatten

/-- A string over several lines; the opening quotes are read. A line end directly behind them does
not belong to the string, and up to two of the quotes at the end do. -/
def scanBlock (quote : Char) : Scan String := do
  let _ ← acceptNewline
  let pieces ← many (scanBlockPiece quote)
  let quotes ← span (· == quote)
  if 5 < quotes.length then
    failure
  else
    return String.ofList (pieces.flatten ++ quotes.drop 3)

/-- A string on one line. -/
def scanKeyString : Scan String := do
  match ← next with
  | '"' => scanLine '"'
  | '\x27' => scanLine '\x27'
  | _ => failure

/-- A string of any form. -/
def scanString : Scan String := do
  if ← accept ['"', '"', '"'] then
    scanBlock '"'
  else if ← accept ['\x27', '\x27', '\x27'] then
    scanBlock '\x27'
  else
    scanKeyString

/-! ## Writing -/

/-- The forms of a written string. -/
inductive Form where
  /-- Double quotes. -/
  | basic
  /-- Single quotes. -/
  | literal
  /-- Three double quotes. -/
  | basicBlock
  /-- Three single quotes. -/
  | literalBlock
deriving DecidableEq, Repr

/-- The longest run of a character. -/
def longestRun (c : Char) : List Char → Nat → Nat
  | [], run => run
  | d :: r, run =>
    if d == c then longestRun c r (run + 1) else max run (longestRun c r 0)

/-- A control character that is shown by an escape only. -/
def isHidden (c : Char) : Bool :=
  !isText c && c != '\n'

/-- The form in which a string is written. -/
def Form.ofText (s : List Char) : Form :=
  let hidden := s.any isHidden
  let newline := s.contains '\n'
  let backslash := s.contains '\\'
  let double := longestRun '"' s 0
  let single := longestRun '\x27' s 0
  if !hidden && !backslash && double == 0 && !newline then
    .basic
  else if !hidden && single == 0 && !newline then
    .literal
  else if !hidden && !backslash && double ≤ 2 then
    .basicBlock
  else if !hidden && single ≤ 2 then
    .literalBlock
  else if newline then
    .basicBlock
  else
    .basic

/-- The escape of a control character. -/
def controlEscape (c : Char) : List Char :=
  let n := c.toNat
  ['\\', 'u', '0', '0', (Nat.digitChar (n / 16)).toUpper, (Nat.digitChar (n % 16)).toUpper]

/-- The escape of a character, if it has one. -/
def escape? (block : Bool) (c : Char) : Option (List Char) :=
  match c with
  | '\x08' => some ['\\', 'b']
  | '\t' => some ['\\', 't']
  | '\n' => if block then none else some ['\\', 'n']
  | '\x0c' => some ['\\', 'f']
  | '\r' => some ['\\', 'r']
  | '\\' => some ['\\', '\\']
  | c => if isHidden c then some (controlEscape c) else none

/-- A text between double quotes. Up to `free` quotes in a row stand for themselves; `run` of them
stand in front. -/
def escaped (block : Bool) (free : Nat) : Nat → List Char → List Char
  | _, [] => []
  | run, c :: r =>
    if c == '"' then
      if run < free then c :: escaped block free (run + 1) r
      else '\\' :: '"' :: escaped block free 0 r
    else
      (escape? block c).getD [c] ++ escaped block free 0 r

/-- A string as it is written. A block with a line feed begins on a line of its own. -/
def quote (s : String) : String :=
  let cs := s.toList
  let start := if cs.contains '\n' then "\n" else ""
  match Form.ofText cs with
  | .basic => "\"" ++ String.ofList (escaped false 0 0 cs) ++ "\""
  | .literal => "'" ++ s ++ "'"
  | .basicBlock => "\"\"\"" ++ start ++ String.ofList (escaped true 2 0 cs) ++ "\"\"\""
  | .literalBlock => "'''" ++ start ++ s ++ "'''"

end PiecewiseNet.Toml
