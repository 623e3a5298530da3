import LatexPreview.Convert.Document
import LatexPreview.MathText.Restore

/-!
# Fragments of a page

A document is converted, cleaned, and only then gets its math back: a cleaner would
be free to spoil the backslashes, braces and brackets that math depends on.

* `Sanitizer` cleans HTML; `Sanitizer.sparingBlank` spares what is blank
* `renderFragment` shows a document
-/

namespace LatexPreview

/-- Cleans HTML of whatever could do harm. -/
abbrev Sanitizer := Text → Text

/-- Leaves blank HTML as it is. -/
def Sanitizer.sparingBlank (clean : Sanitizer) : Sanitizer := fun html =>
  if html.allBlank then html else clean html

/-- The HTML of a document, and warnings. The way of showing math is looked at last. -/
def renderFragment (typeset : Typesetter) (clean : Sanitizer) (mode : Text) (latex : Text) :
    Except UnknownMathMode (Text × List Message) := do
  let c := convert latex
  let html := clean c.html
  let mode ← MathMode.ofName mode
  pure (restoreMath typeset mode c.math html)

end LatexPreview
