import LatexPreview.Convert.Draft
import LatexPreview.Source.Tags

/-!
# Quotations

* `formatQuotes` makes each quotation a block
-/

namespace LatexPreview

open Pattern

/-- An environment for quotations, closed by its own name. -/
def quotePattern : Pattern :=
  command "begin" ++ one (· == '{') ++ capture "env" (alt (word "quote") (word "quotation"))
    ++ one (· == '}') ++ body
    ++ command "end" ++ one (· == '{') ++ again "env" ++ one (· == '}')

/-- Makes each quotation a block. -/
def formatQuotes (s : Text) : Drafting Text :=
  quotePattern.replaceM
    (fun h => addBlock (Html.styled "blockquote" Style.quote (h.get "body").trim)) s

end LatexPreview
