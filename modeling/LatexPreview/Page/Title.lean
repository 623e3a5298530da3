import LatexPreview.Text.Blank
import LatexPreview.Text.Lines

/-!
# The title of a page

The title is the text of the first heading of the highest level in a piece of HTML.

* `HtmlToken` is a tag or a piece of text, `htmlTokens` divides HTML into them
* `unescape` reads references to characters, `codeChar` is the character that a number means
* `findTitle?` is the title
-/

namespace LatexPreview

/-! ## References to characters -/

/-- The characters that have names. -/
def namedCharacters : List (String × Char) :=
  [("amp", '&'), ("lt", '<'), ("gt", '>'), ("quot", '"'), ("nbsp", '\u00A0')]

/-- The value of digits in some base. -/
def valueIn (base : Nat) (digits : Text) : Nat :=
  digits.foldl (fun n c =>
    let d := if c.isDigit then c.toNat - '0'.toNat else c.toLower.toNat - 'a'.toNat + 10
    base * n + d) 0

/-- Is the character a hexadecimal digit? -/
def isHexDigit (c : Char) : Bool :=
  c.isDigit || ('a' ≤ c.toLower && c.toLower ≤ 'f')

/-- What old pages mean by the numbers from 0x80 to 0x9F; those that are missing mean themselves. -/
def legacyCharacters : List (Nat × Char) :=
  [(0x80, '\u20AC'), (0x82, '\u201A'), (0x83, '\u0192'), (0x84, '\u201E'), (0x85, '\u2026'),
    (0x86, '\u2020'), (0x87, '\u2021'), (0x88, '\u02C6'), (0x89, '\u2030'), (0x8A, '\u0160'),
    (0x8B, '\u2039'), (0x8C, '\u0152'), (0x8E, '\u017D'), (0x91, '\u2018'), (0x92, '\u2019'),
    (0x93, '\u201C'), (0x94, '\u201D'), (0x95, '\u2022'), (0x96, '\u2013'), (0x97, '\u2014'),
    (0x98, '\u02DC'), (0x99, '\u2122'), (0x9A, '\u0161'), (0x9B, '\u203A'), (0x9C, '\u0153'),
    (0x9E, '\u017E'), (0x9F, '\u0178')]

/-- The character that a number means; a number of no character means the replacement
character. -/
def codeChar (n : Nat) : Char :=
  match legacyCharacters.lookup n with
  | some c => c
  | none => if n = 0 || !n.isValidChar then '\uFFFD' else Char.ofNat n

/-- The text without the semicolon at its front. -/
def dropSemicolon : Text → Text
  | ';' :: s => s
  | s => s

/-- The number at the front of a text in some base, and what follows it. -/
def codeReference? (base : Nat) (isDigit : Char → Bool) (s : Text) : Option (Char × Text) :=
  let digits := s.takeWhile isDigit
  if digits.isEmpty then none
  else some (codeChar (valueIn base digits), dropSemicolon (s.dropWhile isDigit))

/-- The name at the front of a text, and what follows it. -/
def namedReference? (s : Text) : Option (Char × Text) :=
  namedCharacters.findSome? fun (name, c) =>
    (Text.dropFront? name.toList s).map fun rest => (c, dropSemicolon rest)

/-- The reference at the front of a text behind an ampersand, and what follows it. The semicolon
at its end may be missing. -/
def reference? (s : Text) : Option (Char × Text) :=
  match s with
  | '#' :: 'x' :: s => codeReference? 16 isHexDigit s
  | '#' :: 'X' :: s => codeReference? 16 isHexDigit s
  | '#' :: s => codeReference? 10 Char.isDigit s
  | s => namedReference? s

/-- Reads references, at most `fuel` characters of a text. -/
def unescapeFrom : (fuel : Nat) → Text → Text
  | 0, _ => []
  | _, [] => []
  | fuel + 1, '&' :: s =>
    match reference? s with
    | some (c, rest) => c :: unescapeFrom fuel rest
    | none => '&' :: unescapeFrom fuel s
  | fuel + 1, c :: s => c :: unescapeFrom fuel s

/-- The text with its references read. An ampersand that begins none is kept. -/
def unescape (s : Text) : Text := unescapeFrom s.length s

/-! ## Tags -/

/-- A piece of HTML. -/
inductive HtmlToken where
  | text (s : Text)
  | opening (tag : Text)
  | closing (tag : Text)

/-- What follows a tag whose name has been read: a closing bracket in a quoted value does not
end it. -/
def afterTag (quote : Option Char) : Text → Text
  | [] => []
  | c :: s =>
    match quote with
    | some q => afterTag (if c = q then none else quote) s
    | none => if c = '>' then s else afterTag (if c = '"' ∨ c = '\'' then some c else none) s

/-- Does a character end the name of a tag? -/
def endsTagName (c : Char) : Bool := ['\t', '\n', '\x0c', ' ', '/', '>'].contains c

/-- The name of a tag. -/
def tagName (s : Text) : Text := (s.takeWhile (!endsTagName ·)).map Char.toLower

/-- Divides HTML into at most `fuel` pieces. -/
def htmlTokensFrom : (fuel : Nat) → Text → List HtmlToken
  | 0, _ => []
  | _, [] => []
  | fuel + 1, '<' :: '/' :: s =>
    if s.head?.any Char.isAlpha then .closing (tagName s) :: htmlTokensFrom fuel (afterTag none s)
    else .text ['<'] :: htmlTokensFrom fuel ('/' :: s)
  | fuel + 1, '<' :: s =>
    if s.head?.any Char.isAlpha then .opening (tagName s) :: htmlTokensFrom fuel (afterTag none s)
    else .text ['<'] :: htmlTokensFrom fuel s
  | fuel + 1, s =>
    .text (s.takeWhile (· != '<')) :: htmlTokensFrom fuel (s.dropWhile (· != '<'))

/-- The pieces of some HTML. All line ends count as line feeds. -/
def htmlTokens (html : Text) : List HtmlToken :=
  let html := html.unifyNewlines
  htmlTokensFrom html.length html

/-- The text up to the tag that closes the highest heading. -/
def headingText : List HtmlToken → Text
  | [] => []
  | .text s :: more => unescape s ++ headingText more
  | .closing tag :: more => if tag = "h1".toList then [] else headingText more
  | .opening _ :: more => headingText more

/-- The text of the first heading of the highest level. -/
def firstHeading? : List HtmlToken → Option Text
  | [] => none
  | .opening tag :: more => if tag = "h1".toList then some (headingText more) else firstHeading? more
  | _ :: more => firstHeading? more

/-- The title in some HTML, unless it is blank. -/
def findTitle? (html : Text) : Option Text :=
  ((firstHeading? (htmlTokens html)).map Text.trim).filter (!·.isEmpty)

end LatexPreview
