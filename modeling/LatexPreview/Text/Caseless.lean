import LatexPreview.Text.Basic

/-!
# Letters without case

When case does not matter, an ASCII letter stands for its capital too, and three
letters have a further form of their own: the long s, the two letters i that keep
or lack their dot, and the sign for kelvin.

* `sameLetter` compares a small ASCII letter with a character
* `sameLetter_self`: each letter is a form of itself
-/

namespace LatexPreview

/-- The forms outside ASCII of a small letter. -/
def otherForms : Char → List Char
  | 's' => ['\u017F']
  | 'i' => ['\u0130', '\u0131']
  | 'k' => ['\u212A']
  | _ => []

/-- Is `c` one of the forms of the small letter `letter`? -/
def sameLetter (letter c : Char) : Bool :=
  c == letter || c.toLower == letter || (otherForms letter).contains c

theorem sameLetter_self (c : Char) : sameLetter c c = true := by simp [sameLetter]

end LatexPreview
