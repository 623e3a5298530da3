import LatexPreview.Report.Message
import LatexPreview.Report.Wrap
import LatexPreview.Text.Blank

/-!
# Messages on the console

A message is one coloured line; its details follow in a frame as wide as the terminal.

* `Message.console?` is the printed text of a message, if there is an end to it
-/

namespace LatexPreview

/-! ## Colours -/

namespace Colour

/-- Ends all colours. -/
def reset : String := "\x1b[0m"

/-- The numbers of lines. -/
def lineNumber : String := "\x1b[30;1m"

/-- Highlighted lines. -/
def highlight : String := "\x1b[43;30m"

/-- The location of a message. -/
def location : MessageKind → String
  | .progress => "\x1b[32m"
  | .warning => "\x1b[33;1m"
  | .error => "\x1b[31;1m"

/-- The text of a message. -/
def text : MessageKind → String
  | .progress => ""
  | .warning => "\x1b[37;1m"
  | .error => "\x1b[37;1m"

end Colour

/-! ## The frame -/

/-- The columns that the number of a line takes. -/
def lineNumberWidth : Nat := 4

/-- A character repeated; not at all if the number is negative. -/
def repeated (c : Char) (n : Int) : Text := List.replicate n.toNat c

/-- A horizontal line of the frame around texts of some width. -/
def frameLine (left right : String) (width : Int) : Text :=
  "  ".toList ++ left.toList ++ repeated '─' width ++ right.toList ++ ['\n']

/-- A line of a text as wide as the frame. -/
def plainLine (width : Int) (s : Segment) : Text :=
  "  │ ".toList ++ s.text ++ repeated ' ' (width - s.text.length) ++ " │\n".toList

/-- A line of a listing. Only the first segment of a line shows its number. -/
def codeLine (width : Int) (d : Detail) (s : Segment) : Text :=
  let number := if s.isStart then Text.padLeft lineNumberWidth ' ' (Text.ofNat s.line)
    else List.replicate lineNumberWidth ' '
  let colour := if d.highlight.contains (s.line : Int) then Colour.highlight else ""
  "  │".toList ++ Colour.lineNumber.toList ++ number ++ Colour.reset.toList ++ "  ".toList
    ++ colour.toList ++ s.text ++ repeated ' ' (width - s.text.length)
    ++ Colour.reset.toList ++ " │\n".toList

/-- The lines of a detail in a frame of some width. -/
def Detail.console? (d : Detail) (width : Int) : Option Text :=
  let content := d.content.trimEnd
  if d.numbered then
    let inner := width - lineNumberWidth - 1
    (wrap? inner content).map fun segments =>
      (segments.filter (d.isShown ·.line)).flatMap (codeLine inner d)
  else (wrap? width content).map fun segments => segments.flatMap (plainLine width)

/-- The frame with all details. -/
def framed? (width : Int) : List Detail → Option Text
  | [] => some []
  | d :: more => do
    let first ← d.console? width
    let others ← more.mapM fun d => do
      let lines ← d.console? width
      pure (frameLine "├─" "─┤" width ++ lines)
    pure (frameLine "┌─" "─┐" width ++ first ++ others.flatten ++ frameLine "└─" "─┘" width)

/-- The width of a terminal. One that claims to have no columns is taken to have eighty. -/
def terminalWidth (columns : Int) : Int := if columns ≤ 0 then 80 else columns

/-- The text that is printed on a terminal with some number of columns. -/
def Message.console? (m : Message) (columns : Int) : Option Text :=
  let line := (Colour.location m.kind).toList ++ m.tag.toList ++ m.location ++ [':']
    ++ Colour.reset.toList ++ ' ' :: (Colour.text m.kind).toList ++ m.text
    ++ Colour.reset.toList ++ ['\n']
  (framed? (terminalWidth columns - 6) m.details).map (line ++ ·)

end LatexPreview
