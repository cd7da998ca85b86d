import PiecewiseNet.Decimal.Style

/-!
# JSON values and their text

## Main definitions

- `Value`: the values that are written.
- `numberStyle`: how floating-point numbers look.
- `quote`: a string in double quotes.
- `Value.compact`: the text without white space.
- `Value.pretty`: the text with one member or element a line.
-/

namespace PiecewiseNet.Json

/-- A JSON value. -/
inductive Value where
  | null
  | boolean (b : Bool)
  | natural (n : Nat)
  /-- A floating-point number; nothing stands for one that is not finite. -/
  | float (x : Float)
  | text (s : String)
  | array (elements : List Value)
  | object (members : List (String × Value))

/-- Every floating-point number shows that it is no integer, by a point or by an exponent with a
sign; from 1e16 on and below 1e-5 by an exponent. Of two equally near decimals the one with an even
last digit is written. -/
def numberStyle : Decimal.Style where
  plainFrom := -5
  plainBelow := 16
  pointZero := true
  plusExponent := true
  tie := .toEven

/-- The text of a number. -/
def writeFloat (x : Float) : String :=
  if x.isFinite then numberStyle.write x else "null"

/-- The escape of a control character. -/
def controlEscape (c : Char) : List Char :=
  let n := c.toNat
  ['\\', 'u', '0', '0', Nat.digitChar (n / 16), Nat.digitChar (n % 16)]

/-- A character as it stands in a string. -/
def escaped (c : Char) : List Char :=
  match c with
  | '"' => ['\\', '"']
  | '\\' => ['\\', '\\']
  | '\x08' => ['\\', 'b']
  | '\t' => ['\\', 't']
  | '\n' => ['\\', 'n']
  | '\x0c' => ['\\', 'f']
  | '\r' => ['\\', 'r']
  | c => if c < ' ' then controlEscape c else [c]

/-- A string in double quotes. -/
def quote (s : String) : String :=
  "\"" ++ String.ofList (s.toList.flatMap escaped) ++ "\""

namespace Value

/-! ## Compact text -/

mutual

/-- The text of a value without white space. -/
def compact : Value → String
  | null => "null"
  | boolean b => if b then "true" else "false"
  | natural n => toString n
  | float x => writeFloat x
  | text s => quote s
  | array elements => "[" ++ String.intercalate "," (compactElements elements) ++ "]"
  | object members => "\x7b" ++ String.intercalate "," (compactMembers members) ++ "\x7d"

/-- The texts of elements. -/
def compactElements : List Value → List String
  | [] => []
  | v :: vs => v.compact :: compactElements vs

/-- The texts of members. -/
def compactMembers : List (String × Value) → List String
  | [] => []
  | (key, v) :: rest => (quote key ++ ":" ++ v.compact) :: compactMembers rest

end

/-! ## Text over several lines -/

/-- Two blanks for every level. -/
def indent (level : Nat) : String :=
  String.ofList (List.replicate (2 * level) ' ')

/-- Items on lines of their own, one level deeper than their brackets. -/
def block (level : Nat) (openBracket closeBracket : String) (items : List String) : String :=
  if items.isEmpty then
    openBracket ++ closeBracket
  else
    openBracket ++ "\n" ++
      String.intercalate ",\n" (items.map fun item => indent (level + 1) ++ item) ++ "\n" ++
      indent level ++ closeBracket

mutual

/-- The text of a value at a level, with one member or element a line. -/
def prettyAt (level : Nat) : Value → String
  | array elements => block level "[" "]" (prettyElements (level + 1) elements)
  | object members => block level "\x7b" "\x7d" (prettyMembers (level + 1) members)
  | v => v.compact

/-- The texts of elements. -/
def prettyElements (level : Nat) : List Value → List String
  | [] => []
  | v :: vs => v.prettyAt level :: prettyElements level vs

/-- The texts of members. -/
def prettyMembers (level : Nat) : List (String × Value) → List String
  | [] => []
  | (key, v) :: rest => (quote key ++ ": " ++ v.prettyAt level) :: prettyMembers level rest

end

/-- The text of a value with one member or element a line. -/
def pretty (v : Value) : String :=
  v.prettyAt 0

end Value

end PiecewiseNet.Json
