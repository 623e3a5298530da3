import LatexPreview.Build.Session

/-!
# Cover page files

* `readCoverFile` reads the configuration of a cover page; what is wrong with it is told
-/

namespace LatexPreview

/-- The location in messages of the program itself. -/
def programLocation : Text := "texpv".toList

/-- Tells that a cover page cannot be had. -/
def refuseCover (what : String) (path : Text) (cause : Cause) : Task (Option CoverPage) := do
  report (.error programLocation
    { text := what.toList ++ " cover page configuration \"".toList ++ path ++ ['"']
      cause := some cause })
  pure none

/-- The configuration of a cover page in a file. One that is nested too deep ends the task. -/
def readCoverFile (path : Text) : Task (Option CoverPage) := do
  match (← get).files.readText path with
  | .error (.system e) => refuseCover "cannot read" path e.cause
  | .error e => refuseCover "invalid" path e.cause
  | .ok text =>
    match CoverPage.read text with
    | .error e =>
      if e.isNesting then throw (.config e)
      else refuseCover "invalid" path ⟨e.kind.toList, e.message⟩
    | .ok page => pure (some page)

end LatexPreview
