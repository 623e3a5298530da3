import LatexPreview.Convert.Draft
import LatexPreview.Source.Tags

/-!
# The header of a document

* `headerFields` are the commands whose arguments the header shows
* `extractHeader` moves the arguments of the first of each kind to the header
-/

namespace LatexPreview

open Pattern

/-- The commands of the header with the elements that show their arguments. -/
def headerFields : List (String × String × String) :=
  [("title", "h1", Style.title), ("author", "p", Style.author), ("date", "p", Style.date)]

/-- Takes the first command of a kind out of the text, after the parts found so far. -/
def takeField (found : List Text × Text) (field : String × String × String) : List Text × Text :=
  let (parts, s) := found
  let (name, tag, style) := field
  match (command name ++ longArgument "text").find? s with
  | none => (parts, s)
  | some h => (parts ++ [Html.styled tag style (h.get "text").trim], h.gap ++ h.stop.rest)

/-- Moves title, author and date to the header. A header found before is kept if there is
nothing for a new one. -/
def extractHeader (s : Text) : Drafting Text := do
  let (parts, s) := headerFields.foldl takeField ([], s)
  if !parts.isEmpty then
    modify fun d => { d with header := Html.styled "div" Style.header parts.flatten }
  pure ((fullCommand "maketitle").eraseFirst s)

end LatexPreview
