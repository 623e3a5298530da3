import LatexPreview.Text.Basic

/-!
# Braces

Are the braces of a text balanced? A brace counts unless it is escaped, which is
decided by at most two characters in front of it: the nearer one is a backslash
and the other is not. So a brace behind a line break `\\` counts, and longer runs of
backslashes are not looked into.

* `scanBraces` reads a text up to the first brace that closes nothing
* `escapedAt` asks about one position of a text
-/

namespace LatexPreview

/-- Does a character with these two in front of it, the farther one first, stand behind a single
backslash? -/
def isEscaped (farther nearer : Option Char) : Bool :=
  nearer == some '\\' && farther != some '\\'

/-- What a scan of the braces found. -/
inductive BraceScan where
  /-- The text was read to its end, with so many braces left open. -/
  | finished (open_ : Nat)
  /-- The scan stopped at a closing brace that closes nothing. -/
  | stray (position : Nat)
  deriving DecidableEq

namespace BraceScan

/-- The number of braces left open; one less than none behind a stray closing brace. -/
def depth : BraceScan → Int
  | finished n => n
  | stray _ => -1

/-- The position of the closing brace that closes nothing. -/
def unmatchedClose? : BraceScan → Option Nat
  | finished _ => none
  | stray position => some position

/-- The number of braces left open. -/
def unclosed : BraceScan → Nat
  | finished n => n
  | stray _ => 0

end BraceScan

/-- Scans the text behind two given characters, at a depth and a position. -/
def scanBracesFrom (farther nearer : Option Char) (depth position : Nat) : Text → BraceScan
  | [] => .finished depth
  | c :: s =>
    let go depth := scanBracesFrom nearer (some c) depth (position + 1) s
    if isEscaped farther nearer then go depth
    else if c = '{' then go (depth + 1)
    else if c = '}' then
      match depth with
      | 0 => .stray position
      | d + 1 => go d
    else go depth

/-- Scans the braces of a text. -/
def scanBraces (s : Text) : BraceScan := scanBracesFrom none none 0 0 s

/-! ## Single positions -/

/-- A position that a text does not have. -/
inductive PositionError where
  | outOfRange

/-- The wording of a refusal. -/
def PositionError.message : PositionError → String
  | outOfRange => "string index out of range"

/-- Is the position behind a single backslash? Nothing stands in front of the start, and only the
characters in front of a position are looked at. -/
def escapedAt (s : Text) (position : Int) : Except PositionError Bool :=
  if position ≤ 0 then .ok false
  else
    let i := position.toNat
    match s[i - 1]? with
    | none => .error .outOfRange
    | some c => .ok (isEscaped (if i = 1 then none else s[i - 2]?) (some c))

/-- The positions of a text that are behind a single backslash. -/
def escapedPositions (s : Text) : List Nat :=
  (List.range s.length).filter fun i => (escapedAt s i) matches .ok true

end LatexPreview
