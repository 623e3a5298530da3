import LatexPreview.Number.Double
import LatexPreview.Text.Basic

/-!
# The shortest text of a floating point number

A number is written with the fewest decimal digits that read back as the number; of
several such texts the nearest is taken, of two equally near ones the one whose last
digit is even. Between `0.0001` and `10^16` the digits are written around a point,
else with an exponent of at least two digits.

* `Double.shortest` finds the digits
* `Double.text` writes them
-/

namespace LatexPreview

namespace Double

/-- A positive rational number. -/
structure Ratio where
  num : Nat
  den : Nat

namespace Ratio

/-- Is the first number less? -/
def lt (a b : Ratio) : Bool := a.num * b.den < b.num * a.den

/-- Is the first number less or equal? -/
def le (a b : Ratio) : Bool := a.num * b.den ≤ b.num * a.den

/-- `a * 10 ^ k` -/
def shift (a : Ratio) : Int → Ratio
  | .ofNat k => ⟨a.num * tenTo k, a.den⟩
  | .negSucc k => ⟨a.num, a.den * tenTo (k + 1)⟩

/-- `n * 2 ^ e` -/
def dyadic (n : Nat) : Int → Ratio
  | .ofNat k => ⟨n * twoTo k, 1⟩
  | .negSucc k => ⟨n, twoTo (k + 1)⟩

/-- The `k` with `10 ^ (k - 1) ≤ a < 10 ^ k`. -/
def magnitude (a : Ratio) : Int :=
  if a.den ≤ a.num then (Nat.toDigits 10 (a.num / a.den)).length
  else 1 - (Nat.toDigits 10 ((a.den + a.num - 1) / a.num - 1)).length

end Ratio

/-- The numbers that round to a given one, from its neighbours' midpoints. -/
structure Interval where
  value : Ratio
  low : Ratio
  high : Ratio
  /-- Do the ends round to the number too? -/
  closed : Bool

namespace Interval

/-- The numbers that round to `mantissa * 2 ^ exponent`. Below a power of two they are closer. -/
def around (mantissa : Nat) (exponent : Int) : Interval :=
  let below := if mantissa = twoTo 52 ∧ exponent ≠ minExponent then 1 else 2
  { value := .dyadic (4 * mantissa) (exponent - 2)
    low := .dyadic (4 * mantissa - below) (exponent - 2)
    high := .dyadic (4 * mantissa + 2) (exponent - 2)
    closed := mantissa % 2 = 0 }

/-- Does a number round to the given one? -/
def holds (i : Interval) (a : Ratio) : Bool :=
  if i.closed then i.low.le a && a.le i.high else i.low.lt a && a.lt i.high

/-- The multiple of `10 ^ unit` that rounds to the number and is nearest to it, if there is one. -/
def nearest? (i : Interval) (unit : Int) : Option Nat :=
  let scaled := i.value.shift (-unit)
  let below := scaled.num / scaled.den
  let fits n := i.holds ((⟨n, 1⟩ : Ratio).shift unit)
  match fits below, fits (below + 1) with
  | true, true =>
    let twice := 2 * (scaled.num % scaled.den)
    some (if twice < scaled.den then below
      else if twice = scaled.den then below + below % 2
      else below + 1)
  | true, false => some below
  | false, true => some (below + 1)
  | false, false => none

end Interval

/-- The digits and the power of ten of the shortest decimal that rounds to a positive number: with
one digit more at each step, at most seventeen of them are needed. -/
def shortest (mantissa : Nat) (exponent : Int) : Nat × Int :=
  let i := Interval.around mantissa exponent
  let k := i.value.magnitude
  let found := (List.range 17).findSome? fun (count : Nat) =>
    let unit := k - (count + 1)
    (i.nearest? unit).map fun digits => (digits, unit)
  found.getD (0, 0)

/-- The digits of a number without the zeros at its end, and the number of those zeros. -/
def dropZeros (digits : Text) : Text × Nat :=
  let kept := (digits.reverse.dropWhile (· == '0')).reverse
  (kept, digits.length - kept.length)

/-- Digits written around a point. The point stands behind the first `point` of them. -/
def positional (digits : Text) (point : Int) : Text :=
  if point ≤ 0 then '0' :: '.' :: List.replicate (-point).toNat '0' ++ digits
  else
    let n := point.toNat
    if digits.length ≤ n then digits ++ List.replicate (n - digits.length) '0' ++ ['.', '0']
    else digits.take n ++ '.' :: digits.drop n

/-- Digits written with an exponent. -/
def scientific (digits : Text) (point : Int) : Text :=
  let front := match digits with
    | [] => []
    | [d] => [d]
    | d :: more => d :: '.' :: more
  let e := point - 1
  front ++ 'e' :: (if e < 0 then '-' else '+') :: Text.padLeft 2 '0' (Text.ofNat e.natAbs)

/-- The text of a number. -/
def text : Double → Text
  | nan => "nan".toList
  | infinite negative => if negative then "-inf".toList else "inf".toList
  | finite negative mantissa exponent =>
    let sign : Text := if negative then ['-'] else []
    if mantissa = 0 then sign ++ "0.0".toList
    else
      let (n, unit) := shortest mantissa exponent
      let (digits, zeros) := dropZeros (Text.ofNat n)
      let point := digits.length + zeros + unit
      sign ++ if -4 < point ∧ point ≤ 16 then positional digits point else scientific digits point

end Double

end LatexPreview
