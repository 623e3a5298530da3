import Mathlib
import LatexPreview.Proofs.Pattern.Scan

/-!
# Replacing matches part by part

A stage replaces the matches in a text by what an action gives for them, from left to right.  Where
a part of the text can be told to be replaced as a whole, whatever comes behind it, the stage is
the actions for its parts one after the other.

* `Pattern.replaceFrom` replaces the matches behind some character
* `Pattern.Rewrites` relates a part of a text to the action that replaces it
* `Skips.rewrites`, `rewrites_hit`, `Rewrites.append`: a gap, a match and two parts
-/

namespace LatexPreview

variable {σ : Type}

theorem Cut.replaceM_prepend {f : Hit → StateM σ Text} (hf : ∀ h gap, f { h with gap } = f h)
    (x : Text) (c : Cut) : (c.prepend x).replaceM f = (x ++ ·) <$> c.replaceM f := by
  cases c with
  | mk hits tail =>
    cases hits with
    | nil => simp [prepend, replaceM]
    | cons h hits => simp [prepend, replaceM, hf]

namespace Pattern

variable {p : Pattern} {f : Hit → StateM σ Text} {x y s : Text}

/-- The text with each match replaced, behind some character. -/
def replaceFrom (p : Pattern) (f : Hit → StateM σ Text) (before : Option Char) (s : Text) :
    StateM σ Text := (p.cutFrom before s).replaceM f

/-- In front of the second text, the first one is replaced by what the action gives, and then the
second one as if it stood alone. -/
def Rewrites (p : Pattern) (f : Hit → StateM σ Text) (x s : Text) (act : StateM σ Text) : Prop :=
  ∀ b, p.replaceFrom f b (x ++ s) = do
    let y ← act
    let z ← p.replaceFrom f (x.getLast?.or b) s
    pure (y ++ z)

/-- A text without matches is left as it is, if what replaces a match does not depend on the text in
front of it. -/
theorem Skips.rewrites (hp : p.Consumes) (hf : ∀ h gap, f { h with gap } = f h)
    (h : ∀ b, p.Skips b x s) : p.Rewrites f x s (pure x) := by
  intro b
  rw [replaceFrom, cutFrom_skips hp (h b), Cut.replaceM_prepend hf, pure_bind, bind_pure_comp,
    replaceFrom]

/-- A match is replaced by what its action gives. -/
theorem rewrites_hit (hp : p.Consumes) {act : StateM σ Text} (hx : x ≠ [])
    (h : ∀ b, ∃ stop, p.at? b (x ++ s) = some stop ∧ stop.rest = s ∧ f ⟨[], x, stop⟩ = act) :
    p.Rewrites f x s act := by
  intro b
  obtain ⟨stop, hstop, hrest, hact⟩ := h b
  rw [replaceFrom, cutFrom_hit hp hx hstop hrest, Cut.replaceM, List.mapM_cons, hact]
  simp [replaceFrom, Cut.replaceM]

theorem Rewrites.append {first second : StateM σ Text} (hx : p.Rewrites f x (y ++ s) first)
    (hy : p.Rewrites f y s second) : p.Rewrites f (x ++ y) s (do
      let u ← first
      let v ← second
      pure (u ++ v)) := by
  intro b
  rw [List.append_assoc, hx b, hy, getLast?_append_or]
  simp [← List.append_assoc]

/-- A whole text. -/
theorem Rewrites.replaceM_eq {act : StateM σ Text} (hp : p.Consumes) (h : p.Rewrites f x [] act) :
    p.replaceM f x = act := by
  have hnil : ∀ b, p.replaceFrom f b [] = pure [] := fun b => by
    rw [replaceFrom, cutFrom, cutAtMost_nil hp]
    simp [Cut.replaceM]
  have hwhole := h none
  rw [List.append_nil, hnil] at hwhole
  exact hwhole.trans (by simp)

end Pattern

end LatexPreview
