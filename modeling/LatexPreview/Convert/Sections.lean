import LatexPreview.Convert.Draft
import LatexPreview.Source.Tags

/-!
# Headings

* `HeadingLevel` is the depth of a section
* `formatSections` makes each heading a block
-/

namespace LatexPreview

open Pattern

/-- The depth of a section. -/
inductive HeadingLevel where
  | outer
  | middle
  | inner
  deriving DecidableEq

namespace HeadingLevel

/-- The command of a level. -/
def name : HeadingLevel → String
  | .outer => "section"
  | .middle => "subsection"
  | .inner => "subsubsection"

/-- The element of a level. -/
def tag : HeadingLevel → String
  | .outer => "h2"
  | .middle => "h3"
  | .inner => "h4"

/-- The style of a level. -/
def style : HeadingLevel → String
  | .outer => Style.sectionHeading
  | .middle => Style.subsectionHeading
  | .inner => Style.subsubsectionHeading

/-- The levels, the longest name first. -/
def all : List HeadingLevel := [.inner, .middle, .outer]

/-- The level with a name. -/
def ofName (s : Text) : HeadingLevel :=
  (all.find? (·.name.toList == s)).getD .outer

end HeadingLevel

/-- A heading, numbered or not. -/
def headingPattern : Pattern :=
  one (· == '\\') ++ capture "level" (anyOf (HeadingLevel.all.map (word ·.name)))
    ++ optional (one (· == '*')) ++ argument "text"

/-- Makes each heading a block. -/
def formatSections (s : Text) : Drafting Text :=
  headingPattern.replaceM (fun h =>
    let level := HeadingLevel.ofName (h.get "level")
    addBlock (Html.styled level.tag level.style (h.get "text"))) s

end LatexPreview
