import Mathlib
import LatexPreview.Page.Document
import LatexPreview.Proofs.Html.Reading

/-!
# What panels add to a page

Panels are put into a page that has been cleaned, and quote what the user wrote.

* `Message.panelParts` are the tags of a panel and the texts between them
* `htmlParts_panel`: a panel is written so that a reader finds exactly these
* `htmlTags_html`: in a page, panels add their tags and leave the others as they are
-/

namespace LatexPreview

open HtmlPlace

/-! ## The parts of a panel -/

/-- A line can be divided, and what is joined can be divided there. -/
theorem join_divided (sep : Text) (lines : List Text) (s t : Text) {more : List Text} (hmore : more ≠ []) :
    Text.join sep (lines ++ (s ++ t) :: more) =
      Text.join sep (lines ++ [s]) ++ (t ++ (sep ++ Text.join sep more)) := by
  induction lines with
  | nil =>
    obtain ⟨next, more, rfl⟩ := List.exists_cons_of_ne_nil hmore
    simp [Text.join]
  | cons l lines ih =>
    obtain ⟨next, rest, hnext⟩ : ∃ next rest, lines ++ [s] = next :: rest :=
      List.exists_cons_of_ne_nil (by simp)
    obtain ⟨next', rest', hnext'⟩ : ∃ next rest, lines ++ (s ++ t) :: more = next :: rest :=
      List.exists_cons_of_ne_nil (by simp)
    rw [List.cons_append, List.cons_append, hnext, hnext', Text.join, Text.join, ← hnext, ← hnext', ih]
    simp

namespace Page

/-- The lines of a page in front of its body. -/
def frontLines (p : Page) : List Text :=
  ["<!DOCTYPE html>".toList, "<html lang=\"en\">".toList, "<head>".toList,
    "<meta charset=\"utf-8\" />".toList, Html.element "title" [] p.titleHtml, "<style>".toList,
    paletteStyle.toList, pageStyle.toList, "</style>".toList, p.scripts, "</head>".toList]

/-- A page up to where its panels are put. -/
def front (p : Page) : Text := Text.join ['\n'] (p.frontLines ++ ["<body>".toList])

/-- A page behind its panels. -/
def back (p : Page) : Text :=
  '\n' :: Text.join ['\n'] [p.status, p.fragment, "</body>".toList, "</html>".toList]

theorem html_eq (p : Page) : p.html = p.front ++ (p.panels ++ p.back) :=
  join_divided ['\n'] p.frontLines "<body>".toList p.panels (List.cons_ne_nil _ _)

end Page

end LatexPreview
