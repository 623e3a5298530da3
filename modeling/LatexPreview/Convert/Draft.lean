import LatexPreview.Html.Element
import LatexPreview.Html.Style
import LatexPreview.Placeholder.Table
import LatexPreview.Text.Blank

/-!
# Drafts

What the stages of a conversion share, apart from the text that each hands to the
next: the finished blocks and the math that have been taken out of the text, the
header and the number of the last footnote.

* `Draft` is the shared state and `Drafting` a step that may change it
* `addBlock` takes a finished block out; its token stands alone between blank lines
* `storeMath` takes math out
-/

namespace LatexPreview

/-- What the stages of a conversion share. -/
structure Draft where
  /-- Blocks of HTML. -/
  blocks : PlaceholderTable
  /-- Math, with its delimiters. -/
  math : PlaceholderTable
  /-- The block of title, author and date. -/
  header : Text
  /-- The number of footnotes so far. -/
  footnotes : Nat

/-- A step of a conversion. -/
abbrev Drafting := StateM Draft

namespace Draft

/-- The name in the tokens of blocks. -/
def blockName : Text := "BLK".toList

/-- The name in the tokens of math. -/
def mathName : Text := "MTH".toList

/-- The state before a conversion. -/
def fresh : Draft := ⟨.empty blockName, .empty mathName, [], 0⟩

end Draft

/-- Takes a block out of the text: its token stands alone between blank lines. -/
def addBlock (html : Text) : Drafting Text := do
  let d ← get
  let (token, blocks) := d.blocks.store html
  set { d with blocks }
  pure ("\n\n".toList ++ token ++ "\n\n".toList)

/-- Takes math out of the text. -/
def storeMath (source : Text) : Drafting Text := do
  let d ← get
  let (token, math) := d.math.store source
  set { d with math }
  pure token

/-- The text as a paragraph. -/
def paragraph (s : Text) : Text := Html.styled "p" Style.paragraph s

/-- Takes the text out as a paragraph, unless it is blank. -/
def paragraphBlock (s : Text) : Drafting Text :=
  match s.trim with
  | [] => pure []
  | s => addBlock (paragraph s)

end LatexPreview
