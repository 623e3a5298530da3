import LatexPreview.Pattern.Basic

/-!
# Cutting a text at the matches of a pattern

A text is searched from left to right: the first place where the pattern matches is
taken, and the search goes on behind the match. The library uses only patterns
whose matches are not empty.

* `Pattern.first?` is the first match
* `Pattern.cut` is the text as a sequence of gaps and matches, and a tail
* `Pattern.replaceM`, `Pattern.replace`, `Pattern.split`, `Pattern.spans` read a cut
-/

namespace LatexPreview

/-- One match, with the text between it and the match before it. -/
structure Hit where
  /-- The text skipped in front of the match. -/
  gap : Text
  /-- The matched text. -/
  matched : Text
  /-- The place behind the match. -/
  stop : Cursor

/-- The part captured under a label; empty if nothing was. -/
def Hit.get (h : Hit) (label : String) : Text := (h.stop.get? label).getD []

/-- A text cut at the matches of a pattern. -/
structure Cut where
  /-- The matches, from left to right. -/
  hits : List Hit
  /-- The text behind the last match. -/
  tail : Text

namespace Pattern

/-- The first match in a text. -/
def first? (p : Pattern) (before : Option Char) : Text → Option Hit
  | [] => (p.at? before []).map fun stop => ⟨[], [], stop⟩
  | c :: s =>
    match p.at? before (c :: s) with
    | some stop => some ⟨[], Text.between (c :: s) stop.rest, stop⟩
    | none => (first? p (some c) s).map fun h => { h with gap := c :: h.gap }

/-- Cuts a text at no more than the first `n` matches. -/
def cutAtMost (p : Pattern) : Nat → Option Char → Text → Cut
  | 0, _, s => ⟨[], s⟩
  | n + 1, before, s =>
    match p.first? before s with
    | none => ⟨[], s⟩
    | some h =>
      let later := cutAtMost p n h.stop.before h.stop.rest
      ⟨h :: later.hits, later.tail⟩

/-- Cuts a text at all matches. There are no more of them than characters. -/
def cut (p : Pattern) (s : Text) : Cut := p.cutAtMost s.length none s

/-- Cuts a text at the first match, if there is one. -/
def cutFirst (p : Pattern) (s : Text) : Cut := p.cutAtMost 1 none s

/-- The first match in a whole text. -/
def find? (p : Pattern) (s : Text) : Option Hit := p.first? none s

/-- Does the pattern match somewhere in the text? -/
def occursIn (p : Pattern) (s : Text) : Bool := (p.find? s).isSome

end Pattern

namespace Cut

/-- The text with each match replaced, by an action that is run from left to right. -/
def replaceM {m : Type → Type} [Monad m] (c : Cut) (f : Hit → m Text) : m Text := do
  let parts ← c.hits.mapM fun h => do
    let new ← f h
    pure (h.gap ++ new)
  pure (parts.flatten ++ c.tail)

/-- The text with each match replaced. -/
def replace (c : Cut) (f : Hit → Text) : Text :=
  (c.hits.flatMap fun h => h.gap ++ f h) ++ c.tail

/-- The parts around the matches. -/
def parts (c : Cut) : List Text := c.hits.map (·.gap) ++ [c.tail]

/-- The first and the past-the-end position of each match, counted from a position. -/
def spansFrom : Nat → List Hit → List (Nat × Nat)
  | _, [] => []
  | n, h :: more =>
    let start := n + h.gap.length
    let stop := start + h.matched.length
    (start, stop) :: spansFrom stop more

end Cut

namespace Pattern

/-- The text with each match replaced, by an action that is run from left to right. -/
def replaceM {m : Type → Type} [Monad m] (p : Pattern) (f : Hit → m Text) (s : Text) : m Text :=
  (p.cut s).replaceM f

/-- The text with each match replaced. -/
def replace (p : Pattern) (f : Hit → Text) (s : Text) : Text := (p.cut s).replace f

/-- The text without the matches. -/
def erase (p : Pattern) (s : Text) : Text := p.replace (fun _ => []) s

/-- The text without the first match. -/
def eraseFirst (p : Pattern) (s : Text) : Text := (p.cutFirst s).replace fun _ => []

/-- The text without a match at its very front. -/
def eraseFront (p : Pattern) (s : Text) : Text :=
  match p.at? none s with
  | some stop => stop.rest
  | none => s

/-- The parts of a text around the matches. -/
def split (p : Pattern) (s : Text) : List Text := (p.cut s).parts

/-- The first and the past-the-end position of each match. -/
def spans (p : Pattern) (s : Text) : List (Nat × Nat) := Cut.spansFrom 0 (p.cut s).hits

/-- The number of matches. -/
def count (p : Pattern) (s : Text) : Nat := (p.cut s).hits.length

end Pattern

end LatexPreview
