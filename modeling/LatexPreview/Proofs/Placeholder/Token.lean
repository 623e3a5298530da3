import Mathlib
import LatexPreview.Placeholder.Table
import LatexPreview.Proofs.Pattern.Shapes

/-!
# Tokens

* `mem_placeholder`, `mem_matched`: what the characters of a token are
* `placeholder_injective`: a token has only one number
* `flatMap_eq_append_cons`: an element of a row of lists stands in one of them
-/

namespace LatexPreview

theorem flatMap_eq_append_cons {α β : Type} {f : α → List β} {l : List α} {a b : List β} {c : β}
    (h : l.flatMap f = a ++ c :: b) :
    ∃ front x rest u v, l = front ++ x :: rest ∧ f x = u ++ c :: v ∧
      a = front.flatMap f ++ u ∧ b = v ++ rest.flatMap f := by
  induction l generalizing a with
  | nil => simp at h
  | cons x l ih =>
    rw [List.flatMap_cons] at h
    rcases append_eq_append_cons h with ⟨a', rfl, hl⟩ | ⟨v, hx, rfl⟩
    · obtain ⟨front, y, rest, u, v, rfl, hy, rfl, rfl⟩ := ih hl
      exact ⟨x :: front, y, rest, u, v, rfl, hy, by simp, rfl⟩
    · exact ⟨[], x, l, a, v, rfl, hx, rfl, rfl⟩

theorem isDigit_of_mem_ofNat {c : Char} {n : Nat} (h : c ∈ Text.ofNat n) : c.isDigit = true :=
  Nat.isDigit_of_mem_toDigits (by decide) (by decide) h

theorem mem_placeholder {name : Text} {n : Nat} {c : Char} (h : c ∈ placeholder name n) :
    c = '_' ∨ c ∈ name ∨ c.isDigit = true := by
  simp only [placeholder, List.mem_append, List.mem_cons] at h
  rcases h with ((h | h) | h | h) | h
  · exact .inl (by simpa using h)
  · exact .inr (.inl h)
  · exact .inl h
  · exact .inr (.inr (isDigit_of_mem_ofNat h))
  · exact .inl (by simpa using h)

/-- The same for what looks like a token. -/
theorem mem_matched {name : Text} {h : Hit} (hf : (placeholderPattern name).Found h) {c : Char}
    (hc : c ∈ h.matched) : c = '_' ∨ c ∈ name ∨ c.isDigit = true := by
  have hover : (placeholderPattern name).Over fun c => c = '_' ∨ c ∈ name ∨ c.isDigit = true := by
    refine ⟨⟨Pattern.over_lit ?_, fun c hc => .inr (.inr hc), fun c hc => .inr (.inr hc)⟩,
      Pattern.over_lit fun c hc => .inl (by simpa using hc)⟩
    intro c hc
    simp only [List.mem_append] at hc
    rcases hc with (hc | hc) | hc
    · exact .inl (by simpa using hc)
    · exact .inr (.inl hc)
    · exact .inl (by simpa using hc)
  exact hover.found hf c hc

theorem not_mem_placeholder {name : Text} {c : Char} (hlow : c ≠ '_') (hname : c ∉ name)
    (hdigit : c.isDigit = false) (n : Nat) : c ∉ placeholder name n := by
  intro h
  rcases mem_placeholder h with h | h | h
  · exact hlow h
  · exact hname h
  · exact absurd h (by simp [hdigit])

theorem ofNat_injective : Function.Injective Text.ofNat := by
  intro m n h
  have hread := congrArg (Nat.ofDigitChars 10 · 0) h
  simpa [Text.ofNat, Nat.ofDigitChars_ten_toDigits] using hread

theorem placeholder_injective (name : Text) : Function.Injective (placeholder name) := by
  intro m n h
  refine ofNat_injective ?_
  simpa [placeholder] using h

end LatexPreview
