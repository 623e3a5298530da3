import LatexPreview.Compile.Service
import LatexPreview.Cover.Inject
import LatexPreview.MathText.Restore
import LatexPreview.Report.Console
import LatexPreview.Workspace.Files

/-!
# Sessions

What a run of the program works on, and how its tasks can fail. A failed task keeps
what it has done so far.

* `Session` is the state of a run, `Task` a step of it
* `Fault` is what makes a task fail
* `report` tells the user a message
-/

namespace LatexPreview

/-! ## Faults -/

/-- What makes a task fail. -/
inductive Fault where
  /-- A cover page cannot be written. -/
  | cover (e : BodyError)
  /-- The configuration of a cover page is nested too deep. -/
  | config (e : CoverError)
  | mathMode (e : UnknownMathMode)
  | endpoint (e : UnknownScheme)
  | file (e : FileError)
  /-- The source is being watched already. -/
  | watching
  /-- Something has broken off the waiting. -/
  | broken (reason : Text)
  /-- Nothing fails, but the printing of a message does not come to an end. -/
  | endless

namespace Fault

/-- The name of the kind of a fault. -/
def kind : Fault → String
  | cover _ => "TypeError"
  | config e => e.kind
  | mathMode _ | endpoint _ => "ValueError"
  | file e => e.kind
  | watching | broken _ => "RuntimeError"
  | endless => "endless"

/-- The wording of a fault. -/
def message : Fault → Text
  | cover e => e.message
  | config e => e.message
  | mathMode e => e.message
  | endpoint e => e.message
  | file e => e.message
  | watching => "Cannot start LiveUpdater() multiple times concurrently".toList
  | broken reason => reason
  | endless => []

/-- The fault as the cause of a failure. -/
def cause (e : Fault) : Cause := ⟨e.kind.toList, e.message⟩

end Fault

/-! ## Sessions -/

/-- The state of a run. -/
structure Session where
  files : Files
  cache : Cache := []
  /-- What comes back for each request, by the number of requests before it. -/
  answer : Nat → Reply := fun _ => .unreachable []
  /-- The requests that have been sent. -/
  requests : List Request := []
  /-- The width of the terminal. -/
  columns : Int := 80
  /-- What has been printed. -/
  printed : Text := []
  /-- The messages that have been made. -/
  messages : List Message := []
  /-- How often the cache has been cleared. -/
  clears : Nat := 0

/-- A step of a run. -/
abbrev Task := ExceptT Fault (StateM Session)

/-- Keeps a message without printing it. -/
def note (m : Message) : Task Unit :=
  modify fun s => { s with messages := s.messages ++ [m] }

/-- Prints a message and keeps it. -/
def report (m : Message) : Task Unit := do
  note m
  match m.console? (← get).columns with
  | some text => modify fun s => { s with printed := s.printed ++ text }
  | none => throw .endless

end LatexPreview
