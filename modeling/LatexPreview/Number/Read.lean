import LatexPreview.Number.Double
import LatexPreview.Text.Blank
import LatexPreview.Text.Digit

/-!
# Reading floating point numbers

A number may stand between blanks. It has a sign or none, digits of any script,
single low lines between digits, a point and an exponent; the words for infinity and
for a value that is not a number are read in any case.

* `Double.read?` reads a text
-/

namespace LatexPreview

namespace Double

/-- The blanks that may surround a number: all but the information separators. -/
def isMargin (c : Char) : Bool := isBlank c && !(0x1C ≤ c.toNat && c.toNat ≤ 0x1F)

/-- The text without the blanks around it. -/
def withoutMargin (s : Text) : Text :=
  ((s.dropWhile isMargin).reverse.dropWhile isMargin).reverse

/-- The text with its digits written in ASCII. -/
def plainDigits (s : Text) : Text :=
  s.map fun c => (digitValue? c).elim c fun v => Char.ofNat ('0'.toNat + v)

/-- The text without its low lines, unless one of them does not stand between two digits. -/
def withoutLowLines? (before : Option Char) : Text → Option Text
  | [] => some []
  | c :: s =>
    if c = '_' then
      if before.any Char.isDigit && s.head?.any Char.isDigit then withoutLowLines? (some c) s
      else none
    else (withoutLowLines? (some c) s).map (c :: ·)

/-- The value of a row of digits. -/
def digitsValue (s : Text) : Nat := s.foldl (fun n c => 10 * n + (c.toNat - '0'.toNat)) 0

/-- A sign at the front of a text, and the rest. -/
def takeSign : Text → Bool × Text
  | '-' :: s => (true, s)
  | '+' :: s => (false, s)
  | s => (false, s)

/-- The exponent that is the whole of a text; none is written as the empty text. -/
def readExponent? : Text → Option Int
  | [] => some 0
  | c :: s =>
    if c = 'e' ∨ c = 'E' then
      let (negative, digits) := takeSign s
      if digits.isEmpty || !digits.all Char.isDigit then none
      else some (if negative then -(digitsValue digits : Int) else digitsValue digits)
    else none

/-- Reads digits around a point, and an exponent. -/
def readDecimal? (negative : Bool) (s : Text) : Option Double :=
  let whole := s.takeWhile Char.isDigit
  let s := s.dropWhile Char.isDigit
  let (fraction, s) := match s with
    | '.' :: s => (s.takeWhile Char.isDigit, s.dropWhile Char.isDigit)
    | s => ([], s)
  let digits := whole ++ fraction
  if digits.isEmpty then none
  else (readExponent? s).map fun e => ofDecimal negative (digitsValue digits) (e - fraction.length)

/-- Reads a number behind its sign. -/
def readUnsigned? (negative : Bool) (s : Text) : Option Double :=
  let word := String.ofList (s.map Char.toLower)
  if word = "inf" ∨ word = "infinity" then some (infinite negative)
  else if word = "nan" then some nan
  else readDecimal? negative s

/-- The number that a text holds. -/
def read? (s : Text) : Option Double := do
  let s ← withoutLowLines? none (plainDigits (withoutMargin s))
  let (negative, s) := takeSign s
  readUnsigned? negative s

end Double

end LatexPreview
