import LatexPreview.Convert.Draft
import LatexPreview.Source.Tags

/-!
# Tables

* `tableRows` are the rows of a table's source and `rowCells` the cells of a row
* `tableHtml` shows the source of a table
* `formatTables` makes each table a block
-/

namespace LatexPreview

open Pattern

/-! ## Patterns -/

/-- A table with a caption and whatever else stands in it. -/
def tablePattern : Pattern :=
  opening "table" ++ optional (one (· == '[') ++ many (noneOf "]") ++ one (· == ']'))
    ++ body ++ closing "table"

/-- The rows of a table behind the declaration of its columns. -/
def tabularPattern : Pattern :=
  opening "tabular" ++ longArgument "columns" ++ body ++ closing "tabular"

/-- The caption of a table. -/
def captionPattern : Pattern := command "caption" ++ argument "text"

/-- A line between rows. -/
def rulePattern : Pattern :=
  anyOf [command "hline", command "cline" ++ looseArgument, command "toprule",
    command "midrule", command "bottomrule"]

/-- The space below a row, which stands in front of the next. -/
def rowSpacing : Pattern := one (· == '[') ++ many (noneOf "]") ++ one (· == ']')

/-- What separates cells. -/
def cellSeparator : Pattern := notBehind '\\' ++ one (· == '&')

/-! ## Rows and cells -/

/-- The rows in the source of a table, without those that are blank. -/
def tableRows (source : Text) : List Text :=
  (((word "\\\\").split (rulePattern.erase source)).map fun row =>
    (rowSpacing.eraseFront row.trim).trim).filter (!·.isEmpty)

/-- The cells of a row. -/
def rowCells (row : Text) : List Text := (cellSeparator.split row).map (·.trim)

/-- A row of cells of one kind. -/
def rowHtml (tag style : String) (row : Text) : Text :=
  Html.element "tr" [] ((rowCells row).flatMap (Html.styled tag style))

/-- The first row has the heads of the columns. -/
def rowsHtml : List Text → Text
  | [] => []
  | first :: more =>
    rowHtml "th" Style.headCell first ++ more.flatMap (rowHtml "td" Style.cell)

/-- The table of some source, behind its caption. -/
def tableHtml (source caption : Text) : Text :=
  Html.styled "div" Style.tableFrame (Html.styled "table" Style.table
    (caption ++ Html.element "tbody" [] (rowsHtml (tableRows source))))

/-! ## The stage -/

/-- Shows a table with its caption; what else stands in it follows as a paragraph. -/
def wholeTable (content : Text) : Drafting Text := do
  let caption := match captionPattern.find? content with
    | some h => Html.styled "caption" Style.caption (h.get "text")
    | none => []
  match tabularPattern.find? content with
  | none => addBlock (Html.styled "div" Style.plainTable content)
  | some h => do
    let rest := captionPattern.eraseFirst (tabularPattern.eraseFirst content)
    let table ← addBlock (tableHtml (h.get "body") caption)
    let note ← paragraphBlock rest
    pure (table ++ note)

/-- Makes each table a block. -/
def formatTables (s : Text) : Drafting Text := do
  let s ← tablePattern.replaceM (fun h => wholeTable (h.get "body")) s
  tabularPattern.replaceM (fun h => addBlock (tableHtml (h.get "body") [])) s

end LatexPreview
