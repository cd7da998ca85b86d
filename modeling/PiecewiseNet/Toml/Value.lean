/-!
# Values of a settings text

## Main definitions

- `TableKind`: how a table came into being.
- `Value`: scalars, lists and tables.
- `Value.float?`, `Value.index?`, `Value.boolean?`, `Value.text?`: what a scalar is.
- `Entries.changeAt`: changes the table at the end of a path.
- `Entries.addDotted`, `Entries.openTable`, `Entries.openElement`: the ways in which a text adds to
  its tables.
- `entryD`, `elementD`: what stands under a key or at a position.
-/

namespace PiecewiseNet.Toml

/-- How a table came into being, which decides what may still be added to it. -/
inductive TableKind where
  /-- Under a header of its own. -/
  | headed
  /-- On the way to a table with a header. -/
  | implied
  /-- On the way to an entry with a dotted key. -/
  | dotted
  /-- Written out in braces. -/
  | closed
deriving DecidableEq, Repr

/-- A value of a settings text. -/
inductive Value where
  | text (s : String)
  /-- An integer of 64 bits. -/
  | integer (n : Int)
  | float (x : Float)
  | boolean (b : Bool)
  /-- A date, a time or both; which one is not kept. -/
  | moment
  /-- A list in brackets. -/
  | list (elements : List Value)
  | table (kind : TableKind) (entries : List (String × Value))
  /-- A list of tables, each under the same header. -/
  | tables (elements : List (List (String × Value)))

namespace Value

/-- The number that a value is; an integer counts as one. -/
def float? : Value → Option Float
  | float x => some x
  | integer n => some (Float.ofInt n)
  | _ => none

/-- The index that a value is. -/
def index? : Value → Option Nat
  | integer n => if 0 ≤ n then some n.toNat else none
  | _ => none

/-- The truth value that a value is. -/
def boolean? : Value → Option Bool
  | boolean b => some b
  | _ => none

/-- The string that a value is. -/
def text? : Value → Option String
  | text s => some s
  | _ => none

end Value

/-- The entries of a table, in the order of their keys' first mention. -/
abbrev Entries := List (String × Value)

namespace Entries

/-- Puts a value in the place of the one with the same key. -/
def replace (key : String) (v : Value) : Entries → Entries
  | [] => []
  | e :: es => if e.1 = key then (key, v) :: es else e :: replace key v es

/-- Adds an entry with a new key. -/
def add (key : String) (v : Value) (entries : Entries) : Option Entries :=
  match entries.lookup key with
  | some _ => none
  | none => some (entries ++ [(key, v)])

/-- Changes the table at the end of a path. A list of tables stands for its last element. Tables
that are missing on the way come into being with kind `fresh`. A path of a dotted key must not lead
through a table under a header, and no path leads into a table in braces. -/
def changeAt (fresh : TableKind) (change : TableKind → Entries → Option Entries) :
    List String → TableKind → Entries → Option Entries
  | [], kind, entries => change kind entries
  | key :: path, _, entries =>
    match entries.lookup key with
    | none =>
      match changeAt fresh change path fresh [] with
      | some inner => some (entries ++ [(key, .table fresh inner)])
      | none => none
    | some (.table kind inner) =>
      if kind = .closed ∨ (fresh = .dotted ∧ kind = .headed) then
        none
      else
        match changeAt fresh change path kind inner with
        | some inner => some (entries.replace key (.table kind inner))
        | none => none
    | some (.tables elements) =>
      match changeAt fresh change path .headed (elements.getLastD []) with
      | some last => some (entries.replace key (.tables (elements.dropLast ++ [last])))
      | none => none
    | some _ => none

/-- Adds a value under a dotted key. The table that holds it must itself have come from dotted keys
if the key has more than one part. -/
def addDotted (path : List String) (key : String) (v : Value) (kind : TableKind)
    (entries : Entries) : Option Entries :=
  changeAt .dotted
    (fun kind inner =>
      -- A dotted key leads to a dotted table, and a plain one must not end in such a table.
      if (kind == .dotted) == path.isEmpty then none else inner.add key v)
    path kind entries

/-- The table under a header comes into being. It may have been implied before. -/
def openTable (key : String) (entries : Entries) : Option Entries :=
  match entries.lookup key with
  | none => some (entries ++ [(key, .table .headed [])])
  | some (.table .implied inner) => some (entries.replace key (.table .headed inner))
  | some _ => none

/-- A further table of a list of tables comes into being. -/
def openElement (key : String) (entries : Entries) : Option Entries :=
  match entries.lookup key with
  | none => some (entries ++ [(key, .tables [[]])])
  | some (.tables elements) => some (entries.replace key (.tables (elements ++ [[]])))
  | some _ => none

end Entries

/-- What an entry holds, and what it means to hold where there is none. -/
def entryD {β : Type} (entries : Entries) (key : String) (read : Value → Option β)
    (standard : β) : Option β :=
  match entries.lookup key with
  | some v => read v
  | none => some standard

/-- What an element of a list holds, and what it means to hold where there is none. -/
def elementD {β : Type} (elements : List Value) (i : Nat) (read : Value → Option β)
    (standard : β) : Option β :=
  match elements[i]? with
  | some v => read v
  | none => some standard

end PiecewiseNet.Toml
