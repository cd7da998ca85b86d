import PiecewiseNet.Toml.Moment
import PiecewiseNet.Toml.Number
import PiecewiseNet.Toml.Quoted
import PiecewiseNet.Toml.Value

/-!
# Reading settings texts

A settings text is a sequence of lines: headers of tables, entries `key = value`, and blank lines;
a comment may end each of them. Values in brackets and braces nest.

## Main definitions

- `scanKey`: reads a dotted key.
- `scanValue`: reads a value with a bound on its nesting.
- `Statement`: what a line says.
- `Statement.apply`: the tables that a line adds to.
- `parse`: the entries of a settings text.
-/

namespace PiecewiseNet.Toml

open Text Scan

/-- A space or a tab. -/
def isSpace (c : Char) : Bool :=
  c == ' ' || c == '\t'

/-- Spaces and tabs. -/
def skipSpace : Scan Unit := do
  let _ ← span isSpace
  return ()

/-! ## Keys -/

/-- A character of a key without quotes. -/
def isBare (c : Char) : Bool :=
  c.isAlphanum || c == '_' || c == '-'

/-- One part of a key, with the blanks around it. -/
def scanKeyPart : Scan String := do
  skipSpace
  let part ←
    match ← peek with
    | some '"' | some '\x27' => scanKeyString
    | _ =>
      let bare ← span isBare
      if bare.isEmpty then failure else pure (String.ofList bare)
  skipSpace
  return part

/-- The greatest number of parts of a key, and of brackets and braces around a value. -/
def nestingLimit : Nat := 79

/-- A key: parts with points between them. -/
def scanKey : Scan (List String) := do
  let parts ← someUntil scanKeyPart (not <$> accept ['.'])
  if parts.length ≤ nestingLimit then return parts else failure

/-- The path to the table of an entry, and the last part of its key. -/
def splitKey (parts : List String) : List String × String :=
  (parts.dropLast, parts.getLastD "")

/-! ## Values -/

/-- A comment, if there is one. -/
def skipComment : Scan Unit := do
  if ← accept ['#'] then
    let _ ← span isText
    return ()
  else
    return ()

/-- A line without a value, for `many`. -/
def scanEmptyLine : Scan (Option Unit) := do
  skipSpace
  match ← peek with
  | some '#' =>
    skipComment
    if ← acceptNewline then return some () else failure
  | _ => if ← acceptNewline then return some () else return none

/-- Blanks, comments and line ends. -/
def skipEmptyLines : Scan Unit := do
  let _ ← many scanEmptyLine
  skipSpace

/-- A separator between values, else the closing character. -/
def scanSeparator (close : Char) : Scan Bool := do
  if ← accept [','] then
    return false
  else
    exactly [close]
    return true

/-- The elements of a list; the opening bracket is read. A comma may follow the last one. -/
def scanElements (value : Scan Value) : Scan (List Value) := do
  skipEmptyLines
  if ← accept [']'] then
    return []
  else
    someUntil
      (do
        skipEmptyLines
        let v ← value
        skipEmptyLines
        return v)
      (do
        if ← scanSeparator ']' then
          return true
        else
          skipEmptyLines
          accept [']'])

/-- An entry: a key, an equals sign and a value. -/
def scanEntry (value : Scan Value) : Scan (List String × Value) := do
  let key ← scanKey
  exactly ['=']
  skipSpace
  let v ← value
  return (key, v)

/-- Adds entries with dotted keys. -/
def Entries.addAll (kind : TableKind) : Entries → List (List String × Value) → Option Entries
  | entries, [] => some entries
  | entries, (key, v) :: rest =>
    let (path, last) := splitKey key
    match entries.addDotted path last v kind with
    | some entries => Entries.addAll kind entries rest
    | none => none

/-- The entries of a table in braces; the opening brace is read. -/
def scanInlineTable (value : Scan Value) : Scan Entries := do
  skipSpace
  if ← accept ['\x7d'] then
    return []
  else
    let entries ← someUntil (do let e ← scanEntry value; skipSpace; return e)
      (scanSeparator '\x7d')
    StateT.lift (Entries.addAll .closed [] entries)

/-- A value without brackets and braces. -/
def scanScalar : Scan Value := do
  match ← peek with
  | some '"' | some '\x27' => .text <$> scanString
  | some 't' => exactly "true".toList; return .boolean true
  | some 'f' => exactly "false".toList; return .boolean false
  | some 'i' | some 'n' => .float <$> scanWord
  | _ =>
    (do scanMoment; return .moment) <|> .float <$> scanFloat <|> .integer <$> scanInteger

/-- A value with at most so many brackets and braces around any of its parts. -/
def scanValue : Nat → Scan Value
  | 0 => scanScalar
  | depth + 1 => do
    if ← accept ['['] then
      .list <$> scanElements (scanValue depth)
    else if ← accept ['\x7b'] then
      .table .closed <$> scanInlineTable (scanValue depth)
    else
      scanScalar

/-! ## Lines -/

/-- What a line says. -/
inductive Statement where
  /-- The header of a table. -/
  | table (path : List String)
  /-- The header of one more table of a list. -/
  | element (path : List String)
  /-- An entry of the table whose header stands last. -/
  | entry (key : List String) (v : Value)
  /-- Nothing. -/
  | blank

/-- A line, without its end. -/
def scanStatement : Scan Statement := do
  skipSpace
  match ← peek with
  | none | some '\n' | some '\r' | some '#' => return .blank
  | _ =>
    if ← accept ['[', '['] then
      let path ← scanKey
      exactly [']', ']']
      return .element path
    else if ← accept ['['] then
      let path ← scanKey
      exactly [']']
      return .table path
    else
      let (key, v) ← scanEntry (scanValue nestingLimit)
      return .entry key v

/-- A line with the blanks and the comment at its end. -/
def scanLineOfText : Scan Statement := do
  let s ← scanStatement
  skipSpace
  skipComment
  return s

/-- The line behind is the last one: the text ends where a line end could stand. -/
def scanLineEnd : Scan Bool := do
  if ← acceptNewline then
    return false
  else if (← get).isEmpty then
    return true
  else
    failure

/-- The tables that have been read, and the path of the header that stands last. -/
structure Reading where
  /-- The entries of the outermost table. -/
  entries : Entries := []
  /-- The path of the last header. -/
  header : List String := []

/-- Changes the table at the end of a path of a header. -/
def Reading.change (r : Reading) (path : List String)
    (change : TableKind → Entries → Option Entries) : Option Entries :=
  r.entries.changeAt .implied change path .headed

/-- What a line adds. -/
def Statement.apply (r : Reading) (s : Statement) : Option Reading :=
  match s with
  | .blank => some r
  | .table path =>
    let (parent, key) := splitKey path
    match r.change parent fun _ inner => inner.openTable key with
    | some entries => some { entries, header := path }
    | none => none
  | .element path =>
    let (parent, key) := splitKey path
    match r.change parent fun _ inner => inner.openElement key with
    | some entries => some { entries, header := path }
    | none => none
  | .entry key v =>
    let (path, last) := splitKey key
    match r.change r.header fun kind inner => inner.addDotted path last v kind with
    | some entries => some { r with entries }
    | none => none

/-- A text without the byte order mark in front of it. -/
def dropMark (s : List Char) : List Char :=
  match s with
  | '\ufeff' :: r => r
  | s => s

/-- The entries of a settings text. -/
def parse (s : String) : Option Entries := do
  let lines ← whole (someUntil scanLineOfText scanLineEnd) (dropMark s.toList)
  let r ← lines.foldlM Statement.apply ({} : Reading)
  return r.entries

end PiecewiseNet.Toml
