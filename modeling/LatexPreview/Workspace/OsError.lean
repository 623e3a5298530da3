import LatexPreview.Report.Message
import LatexPreview.Text.Quoted

/-!
# Errors of the operating system

* `OsError` is a numbered error, perhaps about a file
* `OsError.message` words it, `OsError.kind` names its kind
-/

namespace LatexPreview

/-- An error of the operating system. -/
structure OsError where
  number : Nat
  text : Text
  path : Option Text
  deriving DecidableEq

namespace OsError

/-- There is no such file. -/
def notFound (path : Text) : OsError := ⟨2, "No such file or directory".toList, some path⟩

/-- A directory stands where a file was expected. -/
def isDirectory (path : Text) : OsError := ⟨21, "Is a directory".toList, some path⟩

/-- A file stands where a directory was expected. -/
def notDirectory (path : Text) : OsError := ⟨20, "Not a directory".toList, some path⟩

/-- A path or a name in it is too long. -/
def nameTooLong (path : Text) : OsError := ⟨36, "File name too long".toList, some path⟩

/-- The wording of an error: its number, its text and the file. -/
def message (e : OsError) : Text :=
  let about := match e.path with
    | some path => ": ".toList ++ path.quoted
    | none => []
  "[Errno ".toList ++ Text.ofNat e.number ++ "] ".toList ++ e.text ++ about

/-- The kinds of errors that have names of their own, by their numbers. -/
def kinds : List (Nat × String) :=
  [(1, "PermissionError"), (2, "FileNotFoundError"), (3, "ProcessLookupError"),
    (4, "InterruptedError"), (10, "ChildProcessError"), (11, "BlockingIOError"),
    (13, "PermissionError"), (17, "FileExistsError"), (20, "NotADirectoryError"),
    (21, "IsADirectoryError"), (32, "BrokenPipeError"), (103, "ConnectionAbortedError"),
    (104, "ConnectionResetError"), (108, "BrokenPipeError"), (110, "TimeoutError"),
    (111, "ConnectionRefusedError"), (114, "BlockingIOError"), (115, "BlockingIOError")]

/-- The name of the kind of an error. -/
def kind (e : OsError) : String := (kinds.lookup e.number).getD "OSError"

/-- The error as the cause of a failure. -/
def cause (e : OsError) : Cause := ⟨e.kind.toList, e.message⟩

end OsError

end LatexPreview
