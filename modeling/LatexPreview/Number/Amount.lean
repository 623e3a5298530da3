import LatexPreview.Number.Shortest

/-!
# Amounts

A number of seconds is a whole number or a floating point number, as it was written. Where
a number was asked for and an empty list of numbers given, there is none.

* `Amount.text` writes an amount in the way it was given
* `Amount.value` is the amount as a floating point number
-/

namespace LatexPreview

/-- A number that keeps the way in which it was written. -/
inductive Amount where
  | whole (n : Int)
  | real (x : Double)
  /-- No number. -/
  | missing
  deriving DecidableEq

namespace Amount

/-- The text of an amount. Only a floating point number has a point or an exponent. -/
def text : Amount → Text
  | whole n => Text.ofInt n
  | real x => x.text
  | missing => "[]".toList

/-- The nearest floating point number; what is missing counts as zero. -/
def value : Amount → Double
  | whole n => .ofRatio (n < 0) n.natAbs 1
  | real x => x
  | missing => .zero false

end Amount

end LatexPreview
