import LatexPreview.Html.Style
import LatexPreview.MathText.Restore
import LatexPreview.Page.Title
import LatexPreview.Report.Panel

/-!
# Preview pages

* `Page` is what a page is made from
* `Page.html` is the page
-/

namespace LatexPreview

/-- What a page is made from. -/
structure Page where
  /-- The HTML of the document. -/
  fragment : Text
  /-- The title; if it is empty, the document has one or there is none. -/
  title : Text := []
  /-- The way of showing math, if it is one that is known. -/
  mode : Option MathMode := some .mathjax
  wordCount : Option Int := none
  messages : List Message := []

namespace Page

/-- The title of a page of a document without one. -/
def defaultTitle : Text := "Preview".toList

/-- The script that typesets math. -/
def scriptUrl : String := "https://cdn.jsdelivr.net/npm/mathjax@3/es5/tex-svg.js"

/-- The delimiters of math, told to the script. -/
def scriptSettings : String :=
  "<script>
        window.MathJax = \x7b
            tex: \x7b
                inlineMath: [['$', '$'], ['\\\\(', '\\\\)']],
                displayMath: [['$$', '$$'], ['\\\\[', '\\\\]']],
                processEnvironments: true
            \x7d
        \x7d;
    </script>"

/-- The style of the page itself. -/
def pageStyle : String :=
  "body \x7b
        max-width: 48rem;
        margin: 2rem auto;
        padding: 0 1rem;
        font-family: system-ui, sans-serif;
        background: #ffffff;
    \x7d
    .texpv-status \x7b
        font-size: 0.75rem;
        color: var(--p-muted);
        margin-bottom: 1rem;
    \x7d"

/-- The colours of the page. -/
def paletteStyle : String :=
  ":root \x7b\n" ++ String.join (Style.palette.map fun (name, value) => name ++ ": " ++ value ++ ";\n")
    ++ "\x7d"

/-- The title, written as text. -/
def titleHtml (p : Page) : Text :=
  Html.escape (if p.title.isEmpty then (findTitle? p.fragment).getD defaultTitle else p.title)

/-- The scripts of the page. -/
def scripts (p : Page) : Text :=
  if p.mode = some .mathjax then
    scriptSettings.toList ++ "\n<script async src=\"".toList ++ scriptUrl.toList
      ++ "\"></script>".toList
  else []

/-- The line that tells the number of words. -/
def status (p : Page) : Text :=
  match p.wordCount with
  | some n => Html.element "div" [("class", "texpv-status".toList)] (Text.ofInt n ++ " words".toList)
  | none => []

/-- The messages, each on a line of its own. -/
def panels (p : Page) : Text := p.messages.flatMap fun m => '\n' :: m.panel

/-- The page, line by line. -/
def html (p : Page) : Text :=
  Text.join ['\n']
    ["<!DOCTYPE html>".toList,
      "<html lang=\"en\">".toList,
      "<head>".toList,
      "<meta charset=\"utf-8\" />".toList,
      Html.element "title" [] p.titleHtml,
      "<style>".toList,
      paletteStyle.toList,
      pageStyle.toList,
      "</style>".toList,
      p.scripts,
      "</head>".toList,
      "<body>".toList ++ p.panels,
      p.status,
      p.fragment,
      "</body>".toList,
      "</html>".toList]

end Page

end LatexPreview
