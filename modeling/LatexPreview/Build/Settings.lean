import LatexPreview.Compile.Service
import LatexPreview.Cover.Config
import LatexPreview.Workspace.Path

/-!
# Settings of a build

* `BuildSettings` is all that a build needs to know besides the source itself
* `BuildSettings.outputPdf` is the file for the compiled document
-/

namespace LatexPreview

/-- What a build is told. -/
structure BuildSettings where
  /-- The file with the source. -/
  source : Text
  /-- The file for the page. -/
  target : Text
  /-- The name of the way of showing math. -/
  mathMode : Text := "mathjax".toList
  /-- Is the page cleaned? -/
  sanitize : Bool := true
  /-- Is the document compiled, too? -/
  compile : Bool := false
  /-- Is the document compiled even if errors have been found? -/
  force : Bool := false
  /-- The file for the compiled document; if it is empty, the target tells it. -/
  pdf : Text := []
  service : CompileOptions := {}
  /-- For how many seconds a changed source has to rest before it is built again. -/
  debounce : Amount := .real (.ofDecimal false 3 (-1))
  cover : Option CoverPage := none

namespace BuildSettings

/-- The path of the target without its extension. -/
def targetBase (s : BuildSettings) : Text := Path.withoutExtension s.target

/-- The file for the compiled document. -/
def outputPdf (s : BuildSettings) : Text :=
  if s.pdf.isEmpty then Path.withExtension s.target ".pdf" else s.pdf

end BuildSettings

end LatexPreview
