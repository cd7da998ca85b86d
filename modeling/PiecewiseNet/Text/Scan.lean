/-!
# Reading from the front of a text

A reading takes characters off the front of a text and yields a value, or it has none.

## Main definitions

- `Scan`: readings.
- `Scan.peek`, `Scan.next`, `Scan.span`, `Scan.exactly`: the basic readings.
- `Scan.many`: items until one is absent.
- `Scan.someUntil`: items up to the one behind which a reading says that it was the last.
- `Scan.whole`: the value of a reading that takes the whole text.
-/

namespace PiecewiseNet.Text

/-- A reading from the front of a text. -/
abbrev Scan (β : Type) := StateT (List Char) Option β

namespace Scan

variable {β : Type}

/-- The next character, left in place. -/
def peek : Scan (Option Char) :=
  fun s => some (s.head?, s)

/-- The next character. -/
def next : Scan Char :=
  fun s =>
    match s with
    | [] => none
    | c :: r => some (c, r)

/-- The longest run of characters that satisfy `p`. -/
def span (p : Char → Bool) : Scan (List Char) :=
  fun s => some (s.span p)

/-- The given text. -/
def exactly (w : List Char) : Scan Unit :=
  fun s => if w.isPrefixOf s then some ((), s.drop w.length) else none

/-- The given text, if it stands in front; whether it does. -/
def accept (w : List Char) : Scan Bool :=
  fun s => if w.isPrefixOf s then some (true, s.drop w.length) else some (false, s)

/-- Items until one is absent, fewer than `fuel` of them. -/
def collect (item : Scan (Option β)) : Nat → Scan (List β)
  | 0 => failure
  | fuel + 1 => do
    match ← item with
    | none => return []
    | some v =>
      let vs ← collect item fuel
      return v :: vs

/-- Items until one is absent. Every item takes at least one character. -/
def many (item : Scan (Option β)) : Scan (List β) := do
  let ahead ← get
  collect item (ahead.length + 1)

/-- Items with a separator between them. After every item `isLast` says whether it was the last
one. -/
def separated (item : Scan β) (isLast : Scan Bool) : Nat → Scan (List β)
  | 0 => failure
  | fuel + 1 => do
    let v ← item
    if ← isLast then
      return [v]
    else
      let vs ← separated item isLast fuel
      return v :: vs

/-- At least one item. After every item `isLast` says whether it was the last one. Every item takes
at least one character. -/
def someUntil (item : Scan β) (isLast : Scan Bool) : Scan (List β) := do
  let ahead ← get
  separated item isLast (ahead.length + 1)

/-- The value of a reading that takes the whole text. -/
def whole (r : Scan β) (s : List Char) : Option β :=
  match r.run s with
  | some (v, []) => some v
  | _ => none

/-- The value of a hexadecimal digit. -/
def hexDigit? (c : Char) : Option Nat :=
  if '0' ≤ c ∧ c ≤ '9' then
    some (c.toNat - '0'.toNat)
  else if 'a' ≤ c ∧ c ≤ 'f' then
    some (c.toNat - 'a'.toNat + 10)
  else if 'A' ≤ c ∧ c ≤ 'F' then
    some (c.toNat - 'A'.toNat + 10)
  else
    none

/-- A number of exactly so many hexadecimal digits, behind one already read. -/
def hexNumber (n : Nat) : Nat → Scan Nat
  | 0 => return n
  | count + 1 => do
    match hexDigit? (← next) with
    | some d => hexNumber (16 * n + d) count
    | none => failure

/-- The character with a code point, if there is one. -/
def ofCodePoint (n : Nat) : Scan Char :=
  if n.isValidChar then return Char.ofNat n else failure

end Scan

end PiecewiseNet.Text
