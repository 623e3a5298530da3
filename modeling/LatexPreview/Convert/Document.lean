import LatexPreview.Convert.Header
import LatexPreview.Convert.Inline
import LatexPreview.Convert.Lists
import LatexPreview.Convert.Listings
import LatexPreview.Convert.MathLift
import LatexPreview.Convert.Paragraphs
import LatexPreview.Convert.Preamble
import LatexPreview.Convert.Quotes
import LatexPreview.Convert.Sections
import LatexPreview.Convert.Tables

/-!
# Conversion of a document

A document goes through eleven stages, each of which goes over the whole text. There is
no syntax tree: what no stage recognises is left as text. Math is not put back here,
since the result is meant to be cleaned first, and a cleaner would spoil it.

* `Stage.all` are the stages in order, `Stage.run` runs one
* `convertOn` converts a document on a draft, `convert` on a fresh one
-/

namespace LatexPreview

/-- A stage of the conversion. -/
inductive Stage where
  | preamble
  | math
  | header
  | inline
  | sections
  | verbatim
  | quotes
  | tables
  | lists
  | paragraphs
  | blocks
  deriving DecidableEq

namespace Stage

/-- The stages in the order in which they are run. -/
def all : List Stage :=
  [preamble, math, header, inline, sections, verbatim, quotes, tables, lists, paragraphs, blocks]

/-- The name of a stage. -/
def name : Stage → String
  | preamble => "preamble"
  | math => "math"
  | header => "header"
  | inline => "inline"
  | sections => "sections"
  | verbatim => "verbatim"
  | quotes => "quotes"
  | tables => "tables"
  | lists => "lists"
  | paragraphs => "paragraphs"
  | blocks => "blocks"

/-- The stage with a name. -/
def ofName? (s : Text) : Option Stage := all.find? (·.name.toList == s)

/-- Runs a stage on a text. -/
def run : Stage → Text → Drafting Text
  | preamble, s => pure (stripDeclarations s)
  | math, s => liftMath s
  | header, s => extractHeader s
  | inline, s => formatInline s
  | sections, s => formatSections s
  | verbatim, s => formatListings s
  | quotes, s => formatQuotes s
  | tables, s => formatTables s
  | lists, s => formatLists s
  | paragraphs, s => do pure (formatParagraphs (← get).blocks s)
  | blocks, s => do pure ((← get).blocks.resolve s)

end Stage

/-! ## Whole documents -/

/-- A converted document: HTML with tokens for its math, and the math. -/
structure Conversion where
  html : Text
  math : List (Text × Text)

/-- Runs all stages. -/
def runStages (s : Text) : Drafting Text := Stage.all.foldlM (fun s stage => stage.run s) s

/-- A paragraph of the tokens that a page does not hold. -/
def lostTokens (math : PlaceholderTable) (html : Text) : Text :=
  match math.tokens.filter (!html.contains ·) with
  | [] => []
  | lost => paragraph (Text.join [' '] lost)

/-- Converts a document on a draft. Math whose token has been lost follows at the end. -/
def convertOn (s : Text) : Drafting Conversion := do
  let s ← runStages s
  let d ← get
  let html := d.header ++ s
  pure ⟨html ++ lostTokens d.math html, d.math.entries⟩

/-- Converts a document. -/
def convert (s : Text) : Conversion := ((convertOn s).run .fresh).1

end LatexPreview
