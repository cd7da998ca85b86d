import PiecewiseNet.Text.Lines

/-!
# Paths

## Main definitions

- `PathFault`: why a path leads to no text.
- `Path.components`: what stands between the slashes.
- `Path.extension?`: what the name of a file ends in.
-/

namespace PiecewiseNet

open Text

/-- Why a path leads to no text. -/
inductive PathFault where
  /-- There is nothing at the path. -/
  | missing
  /-- There is a folder at the path. -/
  | isFolder
  /-- The path leads through a file. -/
  | notFolder
  /-- The path, or a name in it, has more bytes than a path or a name may have. -/
  | nameTooLong
  /-- There is no room for the text. -/
  | noRoom
  /-- The file cannot be used for another reason. -/
  | other (reason : String)
deriving DecidableEq, Repr

/-- The wording of a path fault. -/
def PathFault.message : PathFault → String
  | missing => "No such file or directory (os error 2)"
  | isFolder => "Is a directory (os error 21)"
  | notFolder => "Not a directory (os error 20)"
  | nameTooLong => "File name too long (os error 36)"
  | noRoom => "No space left on device (os error 28)"
  | other reason => reason

namespace Path

/-- The components of a path. -/
def components (path : String) : List String :=
  (fields '/' path.toList).map String.ofList

/-- The path starts at the top of the file system. -/
def isAbsolute (path : String) : Bool :=
  path.startsWith "/"

/-- A path that ends in a slash asks for a folder. -/
def asksForFolder (path : String) : Bool :=
  path.endsWith "/"

/-- The component stays where it is. -/
def isIdle (c : String) : Bool :=
  c == "" || c == "."

/-- The components in front of the last name, and an idle one in its stead. -/
def outerComponents (path : String) : List String :=
  (((components path).reverse.dropWhile (· == "")).drop 1).reverse ++ [""]

/-- The number of bytes that a name may have. -/
def nameLimit : Nat := 255

/-- The number of bytes that a path may have. -/
def sizeLimit : Nat := 4095

/-- The name of the file that a path leads to. -/
def fileName? (path : String) : Option String :=
  match ((components path).filter (!isIdle ·)).getLast? with
  | some ".." => none
  | name => name

/-- What stands behind the last point of a name. A point in front of the name does not count. -/
def extensionOf? (name : String) : Option String :=
  match (fields '.' name.toList).reverse with
  | last :: before => if before.all List.isEmpty && before.length ≤ 1 then none
    else some (String.ofList last)
  | [] => none

/-- What the name of a file ends in. -/
def extension? (path : String) : Option String :=
  fileName? path >>= extensionOf?

end Path

end PiecewiseNet
