import LatexPreview.Html.Element
import LatexPreview.Report.Message
import LatexPreview.Text.Blank
import LatexPreview.Text.Lines

/-!
# Messages on a page

A message is a panel that can be folded; its details are listings in it.

* `Message.panel` is the HTML of a message
-/

namespace LatexPreview

/-! ## Styles -/

namespace PanelStyle

/-- The panel. -/
def panel : MessageKind → String
  | .progress => ""
  | .warning => "
        background: #fff4d6;
        border-left: 4px solid #e0a800;
        padding: 0.5em;
        margin: 0.25em 0;
        border-radius: 2mm;
    "
  | .error => "
        background: repeating-linear-gradient(-45deg,#c44,#c44 25px,#b33 25px,#b33 50px);
        padding: 0.5em;
        margin: 0.25em 0;
        border-radius: 2mm;
    "

/-- The text of the message. -/
def text : MessageKind → String
  | .progress => "font-weight: bold;"
  | .warning => "font-weight: bold;"
  | .error => "
        font-weight: bold;
        color: white;
        text-shadow: 1px 1px 2px black;
    "

/-- The location of the message. -/
def location : MessageKind → String
  | .progress => ""
  | .warning => "color: #8a6100;"
  | .error => "color: yellow;"

/-- A detail. -/
def listing : String := "
        background: rgba(255, 255, 255, 0.7);
        color: black;
        padding: 0.5em;
        overflow: auto;
        font-family: monospace;
        margin: 0.5em 0 0 0;
    "

end PanelStyle

/-! ## Panels -/

/-- A line of a listing, with its number. -/
def numberedLine (line : Text × Nat) : Text :=
  Text.padLeft 4 ' ' (Text.ofNat line.2) ++ "  ".toList ++ line.1

/-- The text of a detail: of a listing, the lines that are shown. -/
def Detail.panelText (d : Detail) : Text :=
  if d.numbered then
    Text.join ['\n'] (((d.content.trimEnd.lines.zipIdx 1).filter (d.isShown ·.2)).map numberedLine)
  else d.content

/-- The panel of a message. -/
def Message.panel (m : Message) : Text :=
  let location := Html.styled "span" (PanelStyle.location m.kind)
    (Html.escape m.tag.toList ++ Html.escape m.location ++ [':'])
  let summary := Html.styled "summary" (PanelStyle.text m.kind)
    (location ++ ' ' :: Html.escape m.text)
  Html.styled "details" (PanelStyle.panel m.kind)
    (summary ++ m.details.flatMap fun d =>
      Html.styled "pre" PanelStyle.listing (Html.escape d.panelText))

end LatexPreview
