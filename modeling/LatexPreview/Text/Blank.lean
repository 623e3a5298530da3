import LatexPreview.Text.Basic

/-!
# Blank characters

Which characters count as white space, and the trimming of texts. The set is the
one of Unicode's bidirectional classes for white space and separators together
with the space separators: it has the four information separators and the
next-line character, and neither the zero width space nor the byte order mark.

* `isBlank` is the class
* `Text.trim`, `Text.trimEnd` cut blanks off the ends of a text
* `Text.words` are the parts between blanks
* `trim_isEmpty`: a text is trimmed to nothing exactly if all of it is blank
-/

namespace LatexPreview

/-- White space. -/
def isBlank (c : Char) : Bool :=
  let n := c.toNat
  (0x09 ≤ n && n ≤ 0x0D) || (0x1C ≤ n && n ≤ 0x20) || n == 0x85 || n == 0xA0 || n == 0x1680 ||
  (0x2000 ≤ n && n ≤ 0x200A) || n == 0x2028 || n == 0x2029 || n == 0x202F || n == 0x205F ||
  n == 0x3000

theorem isBlank_of_isWhitespace {c : Char} (h : c.isWhitespace = true) : isBlank c = true := by
  simp only [Char.isWhitespace, Bool.or_eq_true, decide_eq_true_eq] at h
  rcases h with ((rfl | rfl) | rfl) | rfl <;> decide

namespace Text

/-- The text without the blanks at its front. -/
def trimStart (s : Text) : Text := s.dropWhile isBlank

/-- The text without the blanks at its end. -/
def trimEnd : Text → Text
  | [] => []
  | c :: s =>
    match trimEnd s with
    | [] => if isBlank c then [] else [c]
    | rest => c :: rest

/-- The text without the blanks at both ends. -/
def trim (s : Text) : Text := trimEnd (trimStart s)

/-- Is the whole text blank? -/
def allBlank (s : Text) : Bool := s.all isBlank

/-- The longest parts of a text without blanks. -/
def words (s : Text) : List Text := (s.splitOn isBlank).filter (!·.isEmpty)

theorem trimEnd_isEmpty (s : Text) : (trimEnd s).isEmpty = allBlank s := by
  induction s with
  | nil => rfl
  | cons c s ih =>
    unfold trimEnd
    cases h : trimEnd s with
    | nil =>
      have hs : allBlank s = true := by simpa [h] using ih.symm
      by_cases hc : isBlank c <;> simp_all [allBlank]
    | cons d r =>
      have hs : allBlank s = false := by simpa [h] using ih.symm
      simp_all [allBlank]

theorem trim_isEmpty (s : Text) : (trim s).isEmpty = allBlank s := by
  unfold trim
  rw [trimEnd_isEmpty]
  induction s with
  | nil => rfl
  | cons c s ih => by_cases hc : isBlank c <;> simp_all [allBlank, trimStart]

end Text

end LatexPreview
