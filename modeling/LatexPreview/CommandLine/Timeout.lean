import LatexPreview.Number.Read

/-!
# Timeouts

A timeout is a number of seconds greater than zero. What is not a number is not known to be
zero or less, and is therefore let through if it is written as such.

* `readTimeout` reads a timeout
-/

namespace LatexPreview

/-- Why a text is no timeout. -/
inductive TimeoutError where
  | notNumber
  | notPositive
  deriving DecidableEq

/-- The wording of an error. -/
def TimeoutError.message : TimeoutError → String
  | notNumber => "Must be a number of seconds (e.g., 60 or 0.5)"
  | notPositive => "Must be greater than zero"

/-- The number of seconds that a text tells. -/
def readTimeout (s : Text) : Except TimeoutError Double :=
  match Double.read? s with
  | none => .error .notNumber
  | some x => if x.le (.zero false) then .error .notPositive else .ok x

end LatexPreview
