import PiecewiseNet.Arena
import PiecewiseNet.FileError
import PiecewiseNet.NameSupply

/-!
# Sessions

What the imports of one session share: the arena of all nodes and the supply of label prefixes.

## Main definitions

- `Session`: an arena and a supply of prefixes.
- `Edit.ofGraph`: a change to the arena on behalf of a file.
-/

namespace PiecewiseNet

/-- An arena and a supply of label prefixes. -/
structure Session (α : Type) where
  arena : Arena α := Arena.empty
  /-- The prefixes. -/
  names : NameSupply := {}

/-- A change to the arena on behalf of a file. -/
def Edit.ofGraph {α β : Type} (e : Edit (GraphError α) α β) : Edit (FileError α) α β :=
  ExceptT.adapt FileError.graph e

end PiecewiseNet
