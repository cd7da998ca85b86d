import PiecewiseNet.Text.Scan

/-!
# Dates and times

A settings text may hold dates and times under keys that nobody reads; only whether they are well
formed matters.

## Main definitions

- `scanDate`: reads a date of the calendar.
- `scanTime`: reads a time of day; a minute may have a leap second.
- `scanMoment`: reads a date, a time of day, or both with an optional offset.
-/

namespace PiecewiseNet.Toml

open Text Scan

/-- A number of exactly so many decimal digits, behind one already read. -/
def fixedDigits (n : Nat) : Nat → Scan Nat
  | 0 => return n
  | count + 1 => do
    let c ← next
    if c.isDigit then fixedDigits (10 * n + (c.toNat - '0'.toNat)) count else failure

/-- A number of two digits between two limits. -/
def pairBetween (least greatest : Nat) : Scan Unit := do
  let n ← fixedDigits 0 2
  if least ≤ n ∧ n ≤ greatest then return () else failure

/-- The number of days of a month. -/
def daysOf (year month : Nat) : Nat :=
  let leap := year % 4 == 0 && (year % 100 != 0 || year % 400 == 0)
  if month = 2 then (if leap then 29 else 28)
  else if month = 4 ∨ month = 6 ∨ month = 9 ∨ month = 11 then 30
  else 31

/-- A date of the calendar. -/
def scanDate : Scan Unit := do
  let year ← fixedDigits 0 4
  exactly ['-']
  let month ← fixedDigits 0 2
  exactly ['-']
  let day ← fixedDigits 0 2
  if 1 ≤ month ∧ month ≤ 12 ∧ 1 ≤ day ∧ day ≤ daysOf year month then return () else failure

/-- A fraction of a second, if there is one. -/
def scanFraction : Scan Unit := do
  if ← accept ['.'] then
    let digits ← span Char.isDigit
    if digits.isEmpty then failure else return ()
  else
    return ()

/-- A time of day. -/
def scanTime : Scan Unit := do
  pairBetween 0 23
  exactly [':']
  pairBetween 0 59
  exactly [':']
  pairBetween 0 60
  scanFraction

/-- An offset from universal time. -/
def scanOffset : Scan Unit := do
  match ← next with
  | 'Z' | 'z' => return ()
  | '+' | '-' =>
    pairBetween 0 23
    exactly [':']
    pairBetween 0 59
  | _ => failure

/-- A reading that may take nothing. -/
def optional (r : Scan Unit) : Scan Unit :=
  r <|> return ()

/-- A time of day behind a date. -/
def scanTimeOfDate : Scan Unit := do
  match ← next with
  | 'T' | 't' | ' ' =>
    scanTime
    optional scanOffset
  | _ => failure

/-- A date, a time of day, or both. -/
def scanMoment : Scan Unit :=
  (do scanDate; optional scanTimeOfDate) <|> scanTime

end PiecewiseNet.Toml
