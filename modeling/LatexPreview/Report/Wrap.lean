import LatexPreview.Text.Basic

/-!
# Breaking lines

A text is divided into segments of at most a given width, each with the number of the
line that it belongs to. A width below one takes nothing off the text, or all but some
characters at its end, so that the division may go on for ever.

* `nextSegment` takes one segment off a text
* `wrapAtMost` are the first segments of a text
* `wrap?` are all segments, if there is an end to them
-/

namespace LatexPreview

/-- A part of a line. -/
structure Segment where
  line : Nat
  /-- Does the line begin with the segment? -/
  isStart : Bool
  text : Text
  deriving DecidableEq

/-- What is left of a text, and the line and the place in it that the rest begins at. -/
structure Unwrapped where
  line : Nat
  isStart : Bool
  rest : Text

/-- The text before its division. -/
def Unwrapped.start (s : Text) : Unwrapped := ⟨1, true, s⟩

/-- The first `width` characters and the others. A negative width counts from the end. -/
def splitAtWidth (width : Int) (s : Text) : Text × Text :=
  let n := if 0 ≤ width then width.toNat else s.length - width.natAbs
  (s.take n, s.drop n)

/-- Takes a segment off a text: up to the end of the line if it is near enough, else as much as
the width allows. -/
def nextSegment (width : Int) (u : Unwrapped) : Segment × Unwrapped :=
  let line := u.rest.takeWhile (· != '\n')
  if line.length < u.rest.length ∧ (line.length : Int) ≤ width then
    (⟨u.line, u.isStart, line⟩, ⟨u.line + 1, true, u.rest.drop (line.length + 1)⟩)
  else
    let (front, rest) := splitAtWidth width u.rest
    (⟨u.line, u.isStart, front⟩, ⟨u.line, false, rest⟩)

/-- At most `n` segments of what is left of a text. -/
def segmentsAtMost (width : Int) : (n : Nat) → Unwrapped → List Segment
  | 0, _ => []
  | n + 1, u =>
    if u.rest.isEmpty then []
    else
      let (segment, later) := nextSegment width u
      segment :: segmentsAtMost width n later

/-- The segments of what is left of a text; none if more than `fuel` are needed. -/
def segments? (width : Int) : (fuel : Nat) → Unwrapped → Option (List Segment)
  | 0, u => if u.rest.isEmpty then some [] else none
  | fuel + 1, u =>
    if u.rest.isEmpty then some []
    else
      let (segment, later) := nextSegment width u
      (segments? width fuel later).map (segment :: ·)

/-- The first `limit` segments of a text. The empty text has one. -/
def wrapAtMost (limit : Nat) (width : Int) (s : Text) : List Segment :=
  if s.isEmpty then [⟨1, true, []⟩].take limit else segmentsAtMost width limit (.start s)

/-- The segments of a text. A segment that takes nothing off the text would be followed by the same
one for ever, so there are no more of them than characters, or there is no end to them. -/
def wrap? (width : Int) (s : Text) : Option (List Segment) :=
  if s.isEmpty then some [⟨1, true, []⟩] else segments? width s.length (.start s)

end LatexPreview
