import LatexPreview.Text.Lines
import LatexPreview.Text.Utf8
import LatexPreview.Workspace.OsError
import LatexPreview.Workspace.Path

/-!
# Files

A tree of files and directories, with a directory in which work is done. A path is followed
name by name, so that a path through a missing directory leads nowhere, even if it
comes back from there.

* `Files.locate` follows a path
* `Files.read` and `Files.write` give and change the content of a file, `Files.readText` gives
  its text
* `Files.has`, `Files.isFile`, `Files.isDirectory` look at what a path leads to
-/

namespace LatexPreview

/-- What stands at a place in the tree. -/
inductive FileNode where
  | file (content : Bytes)
  | directory
  deriving DecidableEq

/-- A place in the tree: the names on the way from the root. -/
abbrev Place := List Text

/-- A tree of files. -/
structure Files where
  /-- The directory in which work is done. -/
  here : Place
  nodes : List (Place × FileNode)

/-- Why a file cannot be read or written. -/
inductive FileError where
  | system (e : OsError)
  /-- The path holds a null character. -/
  | nullInPath
  /-- The bytes of the file form no text. -/
  | undecodable (e : Utf8.Fault)

namespace FileError

/-- The name of the kind of an error. -/
def kind : FileError → String
  | system e => e.kind
  | nullInPath => "ValueError"
  | undecodable _ => "UnicodeDecodeError"

/-- The wording of an error. -/
def message : FileError → Text
  | system e => e.message
  | nullInPath => "embedded null byte".toList
  | undecodable e => e.message

/-- The error as the cause of a failure. -/
def cause (e : FileError) : Cause := ⟨e.kind.toList, e.message⟩

end FileError

namespace Files

/-- A tree with nothing but the directory in which work is done. -/
def empty (here : Place) : Files := ⟨here, []⟩

/-- The path of the directory in which work is done. -/
def herePath (f : Files) : Text := '/' :: Text.join ['/'] f.here

/-- What stands at a place. The way to the directory of work is always there. -/
def node? (f : Files) (place : Place) : Option FileNode :=
  if place.isPrefixOf f.here then some .directory else f.nodes.lookup place

/-- The tree with something at a place. -/
def put (f : Files) (place : Place) (node : FileNode) : Files :=
  { f with nodes := (place, node) :: f.nodes.filter (·.1 != place) }

/-- The tree without what stands at a place. -/
def remove (f : Files) (place : Place) : Files :=
  { f with nodes := f.nodes.filter (·.1 != place) }

/-! ## Following a path -/

/-- The greatest number of bytes in a name. -/
def maxName : Nat := 255

/-- The greatest number of bytes in a path. -/
def maxPath : Nat := 4095

/-- Is a path too long to be followed at all? -/
def isTooLong (path : Text) : Bool := (Utf8.encode path).length > maxPath

/-- Follows names from a place. Each step needs a directory to start from, but what the last one
leads to may be missing. -/
def follow (f : Files) (path : Text) : Place → List Text → Except OsError Place
  | place, [] => .ok place
  | place, name :: more =>
    match f.node? place with
    | none => .error (.notFound path)
    | some (.file _) => .error (.notDirectory path)
    | some .directory =>
      if name = [] ∨ name = ['.'] then follow f path place more
      else if name = ['.', '.'] then follow f path place.dropLast more
      else if (Utf8.encode name).length > maxName then .error (.nameTooLong path)
      else follow f path (place ++ [name]) more

/-- The place to which a path leads. -/
def locate (f : Files) (path : Text) : Except OsError Place :=
  if path.isEmpty then .error (.notFound path)
  else if isTooLong path then .error (.nameTooLong path)
  else f.follow path (if Path.isAbsolute path then [] else f.here) (Path.names path)

/-- What a path leads to. -/
def at? (f : Files) (path : Text) : Option FileNode :=
  if path.contains ['\x00'] then none
  else match f.locate path with
    | .ok place => f.node? place
    | .error _ => none

/-- Does a path lead to anything? -/
def has (f : Files) (path : Text) : Bool := (f.at? path).isSome

/-- Does a path lead to a file? -/
def isFile (f : Files) (path : Text) : Bool :=
  match f.at? path with
  | some (.file _) => true
  | _ => false

/-- Does a path lead to a directory? -/
def isDirectory (f : Files) (path : Text) : Bool := f.at? path == some .directory

/-! ## Reading and writing -/

/-- The content of a file. -/
def read (f : Files) (path : Text) : Except FileError Bytes :=
  if path.contains ['\x00'] then .error .nullInPath
  else match f.locate path with
    | .error e => .error (.system e)
    | .ok place =>
      match f.node? place with
      | none => .error (.system (.notFound path))
      | some .directory => .error (.system (.isDirectory path))
      | some (.file content) => .ok content

/-- The text of a file, with all its line ends written in one way. -/
def readText (f : Files) (path : Text) : Except FileError Text := do
  let bytes ← f.read path
  match Utf8.decode bytes with
  | .ok s => pure s.unifyNewlines
  | .error e => throw (.undecodable e)

/-- The place of a file that is to be written. A path with a slash at its end means a directory. -/
def target (f : Files) (path : Text) : Except OsError Place :=
  if isTooLong path then .error (.nameTooLong path)
  else if path.getLast? = some '/' then
    match f.locate (Path.withoutSlashes path) with
    | .error e => .error { e with path := some path }
    | .ok _ => .error (.isDirectory path)
  else do
    let place ← f.locate path
    if f.node? place = some .directory then .error (.isDirectory path) else .ok place

/-- The tree with a file written. -/
def write (f : Files) (path : Text) (content : Bytes) : Except FileError Files :=
  if path.contains ['\x00'] then .error .nullInPath
  else match f.target path with
    | .error e => .error (.system e)
    | .ok place => .ok (f.put place (.file content))

end Files

end LatexPreview
