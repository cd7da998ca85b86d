import PiecewiseNet.Path

/-!
# Files at paths

A path starts in the working folder or at the top of the file system. The files of the working
folder are known. Of what lies around it only that is known which every system has: the folders
above, the usual folders at the top, and the devices that a text can be written to. A text written
around the working folder changes nothing in it.

## Main definitions

- `Place`: where a path leads to.
- `Device`: what can be written to beside files.
- `Folder`: the files of a working folder.
- `Folder.entry?`: what stands at a place.
- `Folder.locate`: the place that a path leads to.
- `Folder.read`, `Folder.write`: the text at a path, and what comes of writing one there.
-/

namespace PiecewiseNet

/-! ## Places -/

/-- Where the names of a place begin. -/
inductive Base where
  /-- In the working folder. -/
  | workingFolder
  /-- In a folder above it, with so many others in between. -/
  | above (between : Nat)
  /-- At the top of the file system. -/
  | top
deriving DecidableEq, Repr

/-- A place in the file system: the names that lead to it, the outermost first. -/
structure Place where
  /-- Where the names begin. -/
  base : Base
  names : List String
deriving DecidableEq, Repr

namespace Place

/-- The place of a name within a folder. -/
def child (p : Place) (name : String) : Place :=
  ⟨p.base, p.names ++ [name]⟩

/-- The place of the folder around a place. Nothing lies around the top. -/
def parent (p : Place) : Place :=
  if p.names.isEmpty then
    match p.base with
    | .workingFolder => ⟨.above 0, []⟩
    | .above between => ⟨.above (between + 1), []⟩
    | .top => p
  else
    ⟨p.base, p.names.dropLast⟩

/-- The place where a path starts. -/
def start (path : String) : Place :=
  ⟨if Path.isAbsolute path then .top else .workingFolder, []⟩

end Place

/-! ## What stands at a place -/

/-- What can be written to beside files. -/
inductive Device where
  /-- It forgets what is written, and there is nothing to read. -/
  | null
  /-- It forgets what is written, and reading it never ends. -/
  | endless
  /-- It has no room for a text, and reading it never ends. -/
  | full
  | output
  | errors
deriving DecidableEq, Repr

namespace Device

/-- The device of a name. The input of the program is taken to be empty. -/
def named? : String → Option Device
  | "null" | "stdin" => some null
  | "zero" | "random" | "urandom" => some endless
  | "full" => some full
  | "stdout" => some output
  | "stderr" => some errors
  | _ => none

/-- The text of a device. One that never ends fits nowhere. -/
def read : Device → Except PathFault String
  | null => .ok ""
  | _ => .error (.other "out of memory")

end Device

/-- What can stand at a place. -/
inductive Entry where
  | file (text : String)
  | folder
  | device (d : Device)

/-- The folders at the top of every file system. -/
def topFolders : List String :=
  ["bin", "boot", "dev", "etc", "home", "lib", "media", "mnt", "opt", "proc", "root", "run", "sbin",
    "srv", "sys", "tmp", "usr", "var"]

/-- What stands under some names at the top of the file system. -/
def topEntry? : List String → Option Entry
  | [] => some .folder
  | [name] => if topFolders.contains name then some .folder else none
  | ["dev", name] => (Device.named? name).map .device
  | _ => none

/-- The files of a working folder, each with the components of its path from there. -/
structure Folder where
  files : List (List String × String)

namespace Folder

/-- The folder with files of the given paths. -/
def ofFiles (files : List (String × String)) : Folder :=
  ⟨files.map fun f => (Path.components f.1, f.2)⟩

/-- The text of the file under some names. -/
def text? (f : Folder) (names : List String) : Option String :=
  f.files.lookup names

/-- There is a folder under some names. -/
def isFolder (f : Folder) (names : List String) : Bool :=
  names.isEmpty || f.files.any fun file => names.isPrefixOf file.1 && names != file.1

/-- What stands at a place. -/
def entry? (f : Folder) (p : Place) : Option Entry :=
  match p.base with
  | .workingFolder =>
    match f.text? p.names with
    | some text => some (.file text)
    | none => if f.isFolder p.names then some .folder else none
  | .above _ => if p.names.isEmpty then some .folder else none
  | .top => topEntry? p.names

/-! ## Paths -/

/-- The place that a component leads to from a place, which has to be a folder. -/
def step (f : Folder) (p : Place) (component : String) : Except PathFault Place :=
  match f.entry? p with
  | none => .error .missing
  | some (.file _) | some (.device _) => .error .notFolder
  | some .folder =>
    if Path.isIdle component then .ok p
    else if component == ".." then .ok p.parent
    else if Path.nameLimit < component.utf8ByteSize then .error .nameTooLong
    else .ok (p.child component)

/-- The place that some components lead to from where a path starts. -/
def follow (f : Folder) (path : String) (components : List String) : Except PathFault Place :=
  if path.isEmpty then .error .missing
  else if Path.sizeLimit < path.utf8ByteSize then .error .nameTooLong
  else components.foldlM f.step (Place.start path)

/-- The place that a path leads to. -/
def locate (f : Folder) (path : String) : Except PathFault Place :=
  f.follow path (Path.components path)

/-- The text at a path. -/
def read (f : Folder) (path : String) : Except PathFault String := do
  match f.entry? (← f.locate path) with
  | some (.file text) => return text
  | some (.device d) => d.read
  | some .folder => throw .isFolder
  | none => throw .missing

/-- What comes of writing a text. -/
structure Written where
  /-- The working folder afterwards. -/
  folder : Folder
  /-- What is printed. -/
  output : String := ""
  /-- What is reported. -/
  errors : String := ""

/-- The folder with a text at a place. -/
def put (f : Folder) (p : Place) (text : String) : Folder :=
  match p.base with
  | .workingFolder => ⟨(p.names, text) :: f.files.filter (·.1 != p.names)⟩
  | _ => f

/-- What comes of writing a text to a device. -/
def writeTo (f : Folder) (text : String) : Device → Except PathFault Written
  | .null | .endless => .ok { folder := f }
  | .full => .error .noRoom
  | .output => .ok { folder := f, output := text }
  | .errors => .ok { folder := f, errors := text }

/-- What comes of writing a text to a path. What stands under the last name of a path that asks
for a folder does not matter, for a text cannot be written to a folder. -/
def write (f : Folder) (path text : String) : Except PathFault Written := do
  if Path.asksForFolder path then
    let _ ← f.follow path (Path.outerComponents path)
    throw .isFolder
  else
    let p ← f.locate path
    match f.entry? p with
    | some .folder => throw .isFolder
    | some (.device d) => f.writeTo text d
    | some (.file _) | none => return { folder := f.put p text }

/-- The files that differ from those of an earlier state of the folder. -/
def changes (f before : Folder) : List (String × String) :=
  (f.files.filter fun file => before.text? file.1 != some file.2).map fun file =>
    (String.intercalate "/" file.1, file.2)

end Folder

end PiecewiseNet
