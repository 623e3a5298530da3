import LatexPreview.Convert.Draft
import LatexPreview.Source.Tags

/-!
# Code listings

* `codeBlock` shows code
* `formatListings` makes each listing a block
-/

namespace LatexPreview

open Pattern

/-- Code in which the characters of tags are escaped. -/
def codeBlock (code : Text) : Text :=
  Html.styled "pre" Style.listing (Html.styled "code" Style.listingCode
    ((code.replaceChar '<' "&lt;".toList).replaceChar '>' "&gt;".toList))

/-- A listing without options. -/
def verbatimPattern : Pattern := opening "verbatim" ++ body ++ closing "verbatim"

/-- A listing that may have options. -/
def listingPattern : Pattern := opening "lstlisting" ++ optionOf any ++ body ++ closing "lstlisting"

/-- Makes each listing a block. -/
def formatListings (s : Text) : Drafting Text :=
  [verbatimPattern, listingPattern].foldlM
    (fun s p => p.replaceM (fun h => addBlock (codeBlock (h.get "body"))) s) s

end LatexPreview
