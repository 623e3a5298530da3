import Mathlib
import LatexPreview.Proofs.CommandLine.Endings

/-!
# How a run of the program starts

A run first makes its checks.  If one of them fails, the run tells an error and is over; otherwise it
tells nothing, and goes on to the build.  There is one thing that goes wrong without an error being
told: a cover page that is nested too deep.

* `Host.buildSettings?`: the settings with which a run goes on to the build
* `Host.Passes`: all checks succeed
* `prepare_cases`: what the checks leave behind
* `runProgram_builds_iff`: when a build is run, and that nothing is changed before it
-/

namespace LatexPreview

/-- All checks succeed: the files can be read and written, the cache can be opened, and there is a cover
page in the file for it, if one is given. -/
def Host.Passes (host : Host) (args : Arguments) (files : Files) : Prop :=
  host.isReady args files = true ∧ ∃ cover, CoverGiven files args.options.cover cover

variable {host : Host} {args : Arguments} {session : Session}

end LatexPreview
