import LatexPreview.Convert.Draft
import LatexPreview.Source.Tags

/-!
# Paragraphs

What is left of a text when all blocks have been taken out is divided at blank lines
and at the tokens of blocks, which are passed on as they are.

* `paragraphParts` are the parts of a text
* `formatParagraphs` puts the other parts into paragraphs
-/

namespace LatexPreview

open Pattern

/-- A blank line, or several. -/
def blankLine : Pattern := one (· == '\n') ++ many (one isBlank) ++ one (· == '\n')

/-- A break of the line within a paragraph. -/
def lineBreak : Pattern := alt (fullCommand "newline") (word "\\\\")

/-- The parts of a text, each without blanks at its ends and none of them empty. -/
def paragraphParts (blocks : PlaceholderTable) (s : Text) : List Text :=
  let c := (alt (placeholderPattern blocks.name) blankLine).cut s
  ((c.hits.flatMap fun h => [h.gap, h.matched]) ++ [c.tail]).map (·.trim) |>.filter (!·.isEmpty)

/-- Puts the parts that are no blocks into paragraphs. -/
def formatParagraphs (blocks : PlaceholderTable) (s : Text) : Text :=
  (paragraphParts blocks s).flatMap fun part =>
    if blocks.isToken part then part
    else paragraph (lineBreak.replace (fun _ => "<br/>".toList) part)

end LatexPreview
