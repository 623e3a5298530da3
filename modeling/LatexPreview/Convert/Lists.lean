import LatexPreview.Convert.Draft
import LatexPreview.Source.Tags

/-!
# Lists

A list is converted when it holds no other list. It then is only a token, so that the
list around it can be converted in the next pass.

* `ListKind` are the environments for lists
* `innermostList` finds a list that holds no other one
* `formatLists` converts all lists
-/

namespace LatexPreview

open Pattern

/-- The environments for lists. -/
inductive ListKind where
  | itemize
  | enumerate
  | description
  deriving DecidableEq

namespace ListKind

/-- The name of the environment. -/
def name : ListKind → String
  | itemize => "itemize"
  | enumerate => "enumerate"
  | description => "description"

/-- The environments, in the order in which they are tried. -/
def all : List ListKind := [itemize, enumerate, description]

/-- The environment with a name. -/
def ofName (s : Text) : ListKind := (all.find? (·.name.toList == s)).getD enumerate

end ListKind

/-! ## Patterns -/

/-- The tag that opens a list. -/
def listOpening : Pattern := anyOf (ListKind.all.map (opening ·.name))

/-- A list in which no other list is opened. -/
def innermostList : Pattern :=
  command "begin" ++ one (· == '{') ++ capture "env" (anyOf (ListKind.all.map (word ·.name)))
    ++ one (· == '}')
    ++ capture "body" (fewest (notAhead listOpening ++ any))
    ++ command "end" ++ one (· == '{') ++ again "env" ++ one (· == '}')

/-! ## Items -/

/-- The text in front of the first item, and the items. -/
def listItems (body : Text) : Text × List Text :=
  match (fullCommand "item").split body.trim with
  | [] => ([], [])
  | lead :: items => (lead, items.map (·.trim))

/-- A term and what is said about it: without a closing bracket, there is no term. -/
def termAndText (segment : Text) : Text × Text :=
  match Text.find? [']'] segment with
  | some (term, text) => (term, text)
  | none => ([], segment)

/-- The text in front of the first term, and the terms with what is said about them. -/
def listTerms (body : Text) : Text × List (Text × Text) :=
  match (word "\\item[").split body.trim with
  | [] => ([], [])
  | lead :: segments => (lead, segments.map termAndText)

/-- A list of items. -/
def itemsHtml (tag style : String) (items : List Text) : Text :=
  Html.styled tag style (items.flatMap (Html.styled "li" Style.listItem))

/-- A list of terms. -/
def termsHtml (terms : List (Text × Text)) : Text :=
  Html.styled "dl" Style.termList (terms.flatMap fun (term, text) =>
    Html.styled "dt" Style.term term ++ Html.styled "dd" Style.termText text.trim)

/-- The text in front of a list, and the list. -/
def listHtml (kind : ListKind) (body : Text) : Text × Text :=
  match kind with
  | .description =>
    let (lead, terms) := listTerms body
    (lead, termsHtml terms)
  | .itemize =>
    let (lead, items) := listItems body
    (lead, itemsHtml "ul" Style.bulletList items)
  | .enumerate =>
    let (lead, items) := listItems body
    (lead, itemsHtml "ol" Style.numberedList items)

/-! ## The stage -/

/-- Converts one list. The text in front of its first item stays in front of it. -/
def formatList (h : Hit) : Drafting Text := do
  let (lead, html) := listHtml (ListKind.ofName (h.get "env")) (h.get "body")
  let lead ← paragraphBlock lead
  let list ← addBlock html
  pure (lead ++ list)

/-- Converts lists from the innermost outwards, in at most `fuel` passes. -/
def formatListsFrom : (fuel : Nat) → Text → Drafting Text
  | 0, s => pure s
  | fuel + 1, s => do
    let new ← innermostList.replaceM formatList s
    if new = s then pure s else formatListsFrom fuel new

/-- Converts all lists. Each pass but the last takes away one opening tag or more. -/
def formatLists (s : Text) : Drafting Text := formatListsFrom (listOpening.count s + 1) s

end LatexPreview
