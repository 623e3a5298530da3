import LatexPreview.Convert.MathLift
import LatexPreview.MathText.Delimiters
import LatexPreview.Report.Message

/-!
# Putting math back

Math is put back into a page when the page has been cleaned, in one of three ways: as
source for a script in the browser, as elements made ahead of time, or as source to be
read as it is.

* `MathMode` are the ways
* `Typesetter` makes elements from math
* `restoreMath` puts math back
-/

namespace LatexPreview

/-- The ways to put math into a page. -/
inductive MathMode where
  /-- As source that a script in the browser typesets. -/
  | mathjax
  /-- As elements. -/
  | mathml
  /-- As source. -/
  | raw
  deriving DecidableEq

/-- A name that is none of a way to put math into a page. -/
structure UnknownMathMode where
  name : Text

namespace MathMode

/-- All ways. -/
def all : List MathMode := [mathjax, mathml, raw]

/-- The name of a way. -/
def name : MathMode → String
  | mathjax => "mathjax"
  | mathml => "mathml"
  | raw => "raw"

/-- The way with a name. -/
def ofName (s : Text) : Except UnknownMathMode MathMode :=
  match all.find? (·.name.toList == s) with
  | some m => .ok m
  | none => .error ⟨s⟩

end MathMode

/-- The wording of a refusal. -/
def UnknownMathMode.message (e : UnknownMathMode) : Text :=
  "Unknown math mode \"".toList ++ e.name ++ "\"; expected one of ".toList
    ++ Text.join ", ".toList (MathMode.all.map (·.name.toList))

/-- Makes an element from the content of math, or names the kind of failure. -/
abbrev Typesetter := (content : Text) → (display : Bool) → Except Text Text

/-- The location in warnings about math. -/
def mathLocation : Text := "math".toList

/-- Math as an element. If that fails, its source is shown, and a warning tells so. -/
def mathElement (typeset : Typesetter) (source : Text) : Text × List Message :=
  let content := splitDelimiters source
  match typeset content.body.trim content.display with
  | .ok html => (html, [])
  | .error kind =>
    let text := "Cannot convert to MathML (".toList ++ kind
      ++ "); showing the source instead".toList
    (Html.element "code" [] (Html.escape source), [.warning mathLocation text source []])

/-- What stands for math in a page, and warnings. -/
def mathHtml (typeset : Typesetter) (mode : MathMode) (source : Text) : Text × List Message :=
  match mode with
  | .mathml => mathElement typeset source
  | .mathjax | .raw => (Html.escapeText source, [])

/-- Puts math back in place of its tokens. -/
def restoreMath (typeset : Typesetter) (mode : MathMode) (math : List (Text × Text))
    (html : Text) : Text × List Message :=
  let shown := math.map fun (token, source) => (token, mathHtml typeset mode source)
  (restoreTokens (shown.map fun (token, h) => (token, h.1)) html, shown.flatMap (·.2.2))

end LatexPreview
