import LatexPreview.Text.Basic

/-!
# Lines

Two ways of dividing a text into lines, and the reading of line ends.

* `Text.lines` breaks at every character that ends a line in some system
* `Text.unifyNewlines` reads each of the line ends of the common systems as `\n`
* `unifyNewlines_of_no_return`: a text without carriage returns is kept
-/

namespace LatexPreview

/-- The characters that end a line. -/
def endsLine (c : Char) : Bool :=
  let n := c.toNat
  (0x0A ≤ n && n ≤ 0x0D) || (0x1C ≤ n && n ≤ 0x1E) || n == 0x85 || n == 0x2028 || n == 0x2029

namespace Text

/-- The lines of a text. A carriage return and the line feed behind it are one line end, and
behind the last line end there is no line unless it holds some text. -/
def lines : Text → List Text
  | [] => []
  | '\r' :: '\n' :: s => [] :: lines s
  | c :: s =>
    if endsLine c then [] :: lines s
    else match lines s with
      | [] => [[c]]
      | l :: more => (c :: l) :: more

/-- The text with `\r\n` and `\r` written as `\n`. -/
def unifyNewlines : Text → Text
  | [] => []
  | '\r' :: '\n' :: s => '\n' :: unifyNewlines s
  | c :: s => (if c = '\r' then '\n' else c) :: unifyNewlines s

theorem unifyNewlines_of_no_return {s : Text} (h : '\r' ∉ s) : unifyNewlines s = s := by
  fun_induction unifyNewlines s with
  | case1 => rfl
  | case2 s ih => simp at h
  | case3 c s _ ih => simp_all [List.mem_cons, not_or, Ne.symm]

end Text

end LatexPreview
