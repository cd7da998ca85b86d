import PiecewiseNet.Text.Blank

/-!
# Lines and fields

A text is cut into lines at line feeds and a line into fields at a separator.

## Main definitions

- `fields`: the pieces between the occurrences of a separator; never empty.
- `lines`: the lines of a text. A carriage return directly before a line feed belongs to the line
  end, and a text that ends in a line feed has no empty last line.
-/

namespace PiecewiseNet.Text

/-- Puts `c` in front of the first piece, or starts a new piece when `c` separates. -/
def cutBefore (sep : Char) (c : Char) (pieces : List (List Char)) : List (List Char) :=
  if c == sep then
    [] :: pieces
  else
    match pieces with
    | [] => [[c]]
    | p :: ps => (c :: p) :: ps

/-- The pieces of a text between the occurrences of `sep`. -/
def fields (sep : Char) (s : List Char) : List (List Char) :=
  s.foldr (cutBefore sep) [[]]

@[simp] theorem fields_nil (sep : Char) : fields sep [] = [[]] := rfl

@[simp] theorem fields_cons (sep c : Char) (s : List Char) :
    fields sep (c :: s) = cutBefore sep c (fields sep s) := rfl

/-- A line without the carriage return at its end, if it has one. -/
def dropReturn (s : List Char) : List Char :=
  match s.reverse with
  | '\r' :: r => r.reverse
  | _ => s

/-- The lines among the pieces between line feeds: the last piece is a line only if it holds
something, and only the others were ended by a line feed. -/
def linesOfPieces : List (List Char) → List (List Char)
  | [] => []
  | [p] => if p.isEmpty then [] else [p]
  | p :: q :: r => dropReturn p :: linesOfPieces (q :: r)

/-- The lines of a text. -/
def lines (s : List Char) : List (List Char) :=
  linesOfPieces (fields '\n' s)

end PiecewiseNet.Text
