import LatexPreview.Convert.Draft
import LatexPreview.Source.Tags

/-!
# Formatting within a line

* `InlineRule` formats one command
* `inlineRules` are the rules in the order in which they are applied
* `formatInline` applies them
-/

namespace LatexPreview

open Pattern

/-- A command and what it becomes. -/
structure InlineRule where
  pattern : Pattern
  format : Hit → Drafting Text

/-- A command that shows its argument in an element. -/
def InlineRule.wrap (name tag style : String) : InlineRule :=
  ⟨command name ++ argument "text", fun h => pure (Html.styled tag style (h.get "text"))⟩

/-- A link that opens a page of its own. -/
def linkTo (address : Text) (style : String) (content : Text) : Text :=
  Html.element "a"
    [("href", address), ("target", "_blank".toList), ("rel", "noopener".toList),
      ("style", style.toList)] content

/-- The mark of the next footnote, whose text is shown as a tip. -/
def footnoteMark (h : Hit) : Drafting Text := do
  modify fun d => { d with footnotes := d.footnotes + 1 }
  let n := (← get).footnotes
  let tip := (h.get "text").replaceChar '"' "&quot;".toList
  pure (Html.element "sup" [("style", Style.footnote.toList), ("title", tip)]
    ('[' :: Text.ofNat n ++ [']']))

/-- The rules, in the order in which they are applied. -/
def inlineRules : List InlineRule :=
  [.wrap "textbf" "strong" Style.bold,
    .wrap "textit" "em" Style.italic,
    .wrap "emph" "em" Style.italic,
    .wrap "texttt" "code" Style.code,
    .wrap "underline" "u" Style.underline,
    ⟨command "href" ++ argument "url" ++ argument "text",
      fun h => pure (linkTo (h.get "url") Style.link (h.get "text"))⟩,
    ⟨command "url" ++ argument "url",
      fun h => pure (linkTo (h.get "url") Style.url (h.get "url"))⟩,
    ⟨command "footnote" ++ argument "text", footnoteMark⟩]

/-- Applies the rules one after the other to the whole text. -/
def formatInline (s : Text) : Drafting Text :=
  inlineRules.foldlM (fun s rule => rule.pattern.replaceM rule.format s) s

end LatexPreview
