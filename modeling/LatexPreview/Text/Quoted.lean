import LatexPreview.Text.Printable

/-!
# Quoted texts

A text in quotes, as it is shown in messages: in single quotes, or in double quotes if
it holds single ones only. The quote, the backslash and whatever does not show up when
it is printed are written as escapes.

* `Text.quoted` writes a text
-/

namespace LatexPreview

namespace Text

/-- The quote around a text. -/
def quoteFor (s : Text) : Char := if s.contains ['\''] && !s.contains ['"'] then '"' else '\''

/-- A number in hexadecimal, with at least so many digits. -/
def hex (width n : Nat) : Text := padLeft width '0' (Nat.toDigits 16 n)

/-- One character between quotes. -/
def quotedChar (quote c : Char) : Text :=
  if c = quote ∨ c = '\\' then ['\\', c]
  else if c = '\n' then "\\n".toList
  else if c = '\r' then "\\r".toList
  else if c = '\t' then "\\t".toList
  else if isPrintable c then [c]
  else if c.toNat < 0x100 then "\\x".toList ++ hex 2 c.toNat
  else if c.toNat < 0x10000 then "\\u".toList ++ hex 4 c.toNat
  else "\\U".toList ++ hex 8 c.toNat

/-- The text in quotes. -/
def quoted (s : Text) : Text :=
  let quote := quoteFor s
  quote :: s.flatMap (quotedChar quote) ++ [quote]

end Text

end LatexPreview
