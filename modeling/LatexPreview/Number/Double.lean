/-!
# Binary floating point numbers

Numbers of 53 binary digits, as exact integers times powers of two. Every operation
is carried out exactly and its result rounded to the nearest number, of two equally
near ones to the one with an even mantissa.

* `Double.ofRatio` rounds a quotient of natural numbers
* `Double.add` is the rounded sum
* `Double.lt`, `Double.le` compare; a value that is not a number compares with nothing
-/

namespace LatexPreview

/-- A floating point number. A finite one is `± mantissa * 2 ^ exponent`, where the mantissa has at
most 53 digits, and exactly 53 unless the exponent is the least. -/
inductive Double where
  | nan
  | infinite (negative : Bool)
  | finite (negative : Bool) (mantissa : Nat) (exponent : Int)
  deriving DecidableEq

namespace Double

/-- The least exponent. -/
def minExponent : Int := -1074

/-- The greatest exponent. -/
def maxExponent : Int := 971

/-- The number of binary digits of a mantissa. -/
def precision : Nat := 53

/-- Zero, with a sign. -/
def zero (negative : Bool) : Double := finite negative 0 minExponent

/-! ## Rounding -/

/-- A power of two. -/
def twoTo (k : Nat) : Nat := Nat.pow 2 k

/-- A power of ten. -/
def tenTo (k : Nat) : Nat := Nat.pow 10 k

/-- The quotient rounded to the nearest integer, of two equally near ones to the even one. -/
def divNearestEven (num den : Nat) : Nat :=
  let q := num / den
  let twice := 2 * (num % den)
  if twice < den then q
  else if twice = den then q + q % 2
  else q + 1

/-- `num / den / 2 ^ e`, as a numerator and a denominator. -/
def scale (num den : Nat) (e : Int) : Nat × Nat :=
  match e with
  | .ofNat k => (num, den * twoTo k)
  | .negSucc k => (num * twoTo (k + 1), den)

/-- An exponent at which the quotient has an integer part of 53 digits, unless it is too small. -/
def exponentFor (num den : Nat) : Int :=
  let guess : Int := (num.log2 : Int) - (den.log2 : Int) - 52
  let (n, d) := scale num den guess
  max minExponent (if n / d < twoTo 52 then guess - 1 else guess)

/-- The quotient of two natural numbers, the second not zero, rounded. -/
def ofRatio (negative : Bool) (num den : Nat) : Double :=
  if num = 0 then zero negative
  else
    let e := exponentFor num den
    let (n, d) := scale num den e
    let m := divNearestEven n d
    let (m, e) := if m = twoTo precision then (twoTo 52, e + 1) else (m, e)
    if e > maxExponent then infinite negative else finite negative m e

/-- A natural number, rounded. -/
def ofNat (n : Nat) : Double := ofRatio false n 1

/-- `± digits * 10 ^ exponent`, rounded. -/
def ofDecimal (negative : Bool) (digits : Nat) (exponent : Int) : Double :=
  let size : Int := (Nat.toDigits 10 digits).length + exponent
  if digits = 0 then zero negative
  -- far outside of the range no power has to be computed
  else if size > 400 then infinite negative
  else if size < -400 then zero negative
  else match exponent with
    | .ofNat k => ofRatio negative (digits * tenTo k) 1
    | .negSucc k => ofRatio negative digits (tenTo (k + 1))

/-! ## Sums and comparisons -/

/-- The integer `x / 2 ^ unit` for a finite `x` whose exponent is no less than `unit`. -/
def inUnits (negative : Bool) (mantissa : Nat) (exponent unit : Int) : Int :=
  let n : Int := mantissa * twoTo (exponent - unit).toNat
  if negative then -n else n

/-- `n * 2 ^ unit`, rounded; a zero gets the given sign. -/
def ofUnits (zeroNegative : Bool) (n unit : Int) : Double :=
  if n = 0 then zero zeroNegative
  else
    let (a, b) := scale n.natAbs 1 (-unit)
    ofRatio (n < 0) a b

/-- The sum, rounded. -/
def add : Double → Double → Double
  | nan, _ | _, nan => nan
  | infinite s, infinite t => if s = t then infinite s else nan
  | infinite s, _ => infinite s
  | _, infinite t => infinite t
  | finite s m e, finite t n f =>
    let unit := min e f
    ofUnits (s && t) (inUnits s m e unit + inUnits t n f unit) unit

/-- The order of numbers; none if one of them is not a number. -/
def compare? : Double → Double → Option Ordering
  | nan, _ | _, nan => none
  | infinite s, infinite t =>
    some (if s = t then .eq else if s then .lt else .gt)
  | infinite s, _ => some (if s then .lt else .gt)
  | _, infinite t => some (if t then .gt else .lt)
  | finite s m e, finite t n f =>
    let unit := min e f
    some (compare (inUnits s m e unit) (inUnits t n f unit))

/-- Is the first number less? -/
def lt (x y : Double) : Bool := compare? x y == some .lt

/-- Is the first number less or equal? -/
def le (x y : Double) : Bool := compare? x y == some .lt || compare? x y == some .eq

/-- Is the number zero, with either sign? -/
def isZero : Double → Bool
  | finite _ 0 _ => true
  | _ => false

end Double

end LatexPreview
