import Mathlib
import LatexPreview.Text.Basic

/-!
# Passages

Texts with holes: a row of characters and marks, where a text may be put in place of each mark.
The same passage is read with different texts to compare what becomes of them.

* `Passage.fill` puts texts in place of the marks
* `Passage.mentions` are the marks
* `eq_ofText_or`: a passage is a row of characters, or has a first mark
* `fill_eq_of_mentions`: without marks, nothing is put in
-/

namespace LatexPreview

/-- A character, or a mark that stands for a text. -/
inductive Piece (α : Type) where
  | char (c : Char)
  | mention (a : α)
  deriving DecidableEq

namespace Piece

variable {α : Type}

/-- A piece with a text in place of each mark. -/
def fill (content : α → Text) : Piece α → Text
  | char c => [c]
  | mention a => content a

/-- The mark, if the piece is one. -/
def mark? : Piece α → Option α
  | char _ => none
  | mention a => some a

end Piece

/-- A row of characters and marks. -/
abbrev Passage (α : Type) := List (Piece α)

namespace Passage

variable {α : Type}

/-- The passage with a text in place of each mark. -/
def fill (content : α → Text) (g : Passage α) : Text := g.flatMap (Piece.fill content)

/-- The marks in a passage. -/
def mentions (g : Passage α) : List α := g.filterMap Piece.mark?

/-- A row of characters. -/
def ofText (s : Text) : Passage α := s.map .char

section Lemmas

variable (content : α → Text) (g h : Passage α) (c : Char) (a : α) (s : Text)

@[simp] theorem fill_nil : fill content [] = [] := rfl

@[simp] theorem fill_append : fill content (g ++ h) = fill content g ++ fill content h := by
  simp [fill]

@[simp] theorem fill_char : fill content (.char c :: g) = c :: fill content g := rfl

@[simp] theorem fill_mention : fill content (.mention a :: g) = content a ++ fill content g := rfl

@[simp] theorem fill_ofText : fill content (ofText s) = s := by
  induction s with
  | nil => rfl
  | cons c s ih => exact congrArg (c :: ·) ih

@[simp] theorem mentions_nil : mentions ([] : Passage α) = [] := rfl

@[simp] theorem mentions_append : mentions (g ++ h) = mentions g ++ mentions h := by
  simp [mentions]

@[simp] theorem mentions_char : mentions (.char c :: g) = mentions g := rfl

@[simp] theorem mentions_mention : mentions (.mention a :: g) = a :: mentions g := rfl

@[simp] theorem mentions_ofText : mentions (ofText s : Passage α) = [] := by
  simp [mentions, ofText, Piece.mark?]

end Lemmas

/-- A passage is a row of characters, or has a first mark. -/
theorem eq_ofText_or (g : Passage α) :
    (∃ s, g = ofText s) ∨ ∃ s a gb, g = ofText s ++ .mention a :: gb := by
  induction g with
  | nil => exact .inl ⟨[], rfl⟩
  | cons x g ih =>
    cases x with
    | mention a => exact .inr ⟨[], a, g, rfl⟩
    | char c =>
      rcases ih with ⟨s, rfl⟩ | ⟨s, a, gb, rfl⟩
      · exact .inl ⟨c :: s, rfl⟩
      · exact .inr ⟨c :: s, a, gb, rfl⟩

/-- Without marks, nothing is put in. -/
theorem fill_eq_of_mentions {content content' : α → Text} {g : Passage α} (h : mentions g = []) :
    fill content g = fill content' g := by
  rcases eq_ofText_or g with ⟨s, rfl⟩ | ⟨s, a, gb, rfl⟩
  · simp
  · simp at h

end Passage

end LatexPreview
