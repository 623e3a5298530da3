import LatexPreview.Text.Basic
import LatexPreview.Text.Caseless

/-!
# Patterns

Patterns of text with an order of preference among their matches: of two
alternatives the first is tried first, a greedy repetition tries to go on before
it stops, a reluctant one to stop before it goes on. A match is found by running
the pattern with a continuation, which is asked to accept the place reached; if
it refuses, the next choice is tried.

* `Cursor` is a place in a text together with the parts captured on the way
* `Pattern.run` runs a pattern from a place
* `Pattern.at?` is the preferred match at a place
* `Pattern.matchesAll` asks for a match of the whole text
-/

namespace LatexPreview

/-- A pattern of text. -/
inductive Pattern where
  /-- Matches the empty text. -/
  | done
  /-- Matches one character of a class. -/
  | one (ok : Char → Bool)
  /-- Matches the first pattern and, behind it, the second. -/
  | seq (first second : Pattern)
  /-- Matches the first pattern or else the second. -/
  | alt (first second : Pattern)
  /-- Matches the body as often as possible. The body is meant to consume text. -/
  | many (body : Pattern)
  /-- Matches the body as rarely as possible. The body is meant to consume text. -/
  | fewest (body : Pattern)
  /-- Matches the body and keeps the matched part under a label. -/
  | capture (label : String) (body : Pattern)
  /-- Matches the text that was last kept under the label. -/
  | again (label : String)
  /-- Matches the empty text where the body does not match. -/
  | notAhead (body : Pattern)
  /-- Matches the empty text between two neighbours that pass the test. -/
  | edge (ok : Option Char → Option Char → Bool)

/-- A place in a text. -/
structure Cursor where
  /-- The character in front of the place, if there is one. -/
  before : Option Char
  /-- The text behind the place. -/
  rest : Text
  /-- The parts captured so far, the latest first: each is given by the texts that
  stood behind its start and behind its end. -/
  slots : List (String × Text × Text)

/-- The part last captured under a label. -/
def Cursor.get? (s : Cursor) (label : String) : Option Text :=
  (s.slots.lookup label).map fun (start, stop) => Text.between start stop

/-- The place behind the next character. -/
def Cursor.next (s : Cursor) (c : Char) (rest : Text) : Cursor :=
  { s with before := some c, rest }

/-- A continuation accepts a place, possibly after moving on, or refuses it. -/
abbrev Accept := Cursor → Option Cursor

namespace Pattern

/-- Repeats a step while it and the continuation allow, at most `n` times. -/
def greedily (step : Cursor → Accept → Option Cursor) : Nat → Cursor → Accept → Option Cursor
  | 0, s, k => k s
  | n + 1, s, k =>
    match step s fun t => greedily step n t k with
    | some t => some t
    | none => k s

/-- Repeats a step only when the continuation refuses, at most `n` times. -/
def reluctantly (step : Cursor → Accept → Option Cursor) : Nat → Cursor → Accept → Option Cursor
  | 0, s, k => k s
  | n + 1, s, k =>
    match k s with
    | some t => some t
    | none => step s fun t => reluctantly step n t k

/-- Runs a pattern from a place; the result is the first place, in order of preference,
that the continuation accepts. A repetition runs at most once for each character left. -/
def run : Pattern → Cursor → Accept → Option Cursor
  | done, s, k => k s
  | one ok, s, k =>
    match s.rest with
    | [] => none
    | c :: r => if ok c then k (s.next c r) else none
  | seq p q, s, k => run p s fun t => run q t k
  | alt p q, s, k =>
    match run p s k with
    | some t => some t
    | none => run q s k
  | many p, s, k => greedily (run p) s.rest.length s k
  | fewest p, s, k => reluctantly (run p) s.rest.length s k
  | capture label p, s, k =>
    run p s fun t => k { t with slots := (label, s.rest, t.rest) :: t.slots }
  | again label, s, k => do
    let word ← s.get? label
    let r ← Text.dropFront? word s.rest
    k { s with before := word.getLast?.or s.before, rest := r }
  | notAhead p, s, k =>
    match run p s some with
    | some _ => none
    | none => k s
  | edge ok, s, k => if ok s.before s.rest.head? then k s else none

/-- The preferred match at a place. -/
def at? (p : Pattern) (before : Option Char) (s : Text) : Option Cursor :=
  p.run ⟨before, s, []⟩ some

/-- The preferred match of the whole text. -/
def whole? (p : Pattern) (s : Text) : Option Cursor :=
  p.run ⟨none, s, []⟩ fun t => if t.rest.isEmpty then some t else none

/-- Does the pattern match the whole text? -/
def matchesAll (p : Pattern) (s : Text) : Bool := (p.whole? s).isSome

/-! ## Building patterns -/

instance : Append Pattern := ⟨seq⟩

/-- Matches exactly the given text. -/
def lit : Text → Pattern
  | [] => done
  | [c] => one (· == c)
  | c :: s => seq (one (· == c)) (lit s)

/-- Matches exactly the given text. -/
def word (s : String) : Pattern := lit s.toList

/-- Matches the given text in small or capital letters; its own letters are small. -/
def caseless (s : String) : Pattern :=
  s.toList.foldr (fun c p => seq (one (sameLetter c)) p) done

/-- Matches the first of the patterns that does; without patterns, nothing matches. -/
def anyOf : List Pattern → Pattern
  | [] => one fun _ => false
  | [p] => p
  | p :: ps => alt p (anyOf ps)

/-- Matches the pattern if possible and else the empty text. -/
def optional (p : Pattern) : Pattern := alt p done

/-- Matches the pattern once or more, as often as possible. -/
def many1 (p : Pattern) : Pattern := seq p (many p)

/-- Matches the pattern once or more, as rarely as possible. -/
def fewest1 (p : Pattern) : Pattern := seq p (fewest p)

/-- Any character. -/
def any : Pattern := one fun _ => true

/-- Any character of the line. -/
def inLine : Pattern := one (· != '\n')

/-- Any character but the given ones. -/
def noneOf (cs : String) : Pattern := one fun c => !cs.toList.contains c

/-- Stands in front of no ASCII letter. -/
def wordEnd : Pattern :=
  edge fun _ after => !(after.any Char.isAlpha)

/-- Does not stand behind the given character. -/
def notBehind (c : Char) : Pattern := edge fun before _ => before != some c

end Pattern

end LatexPreview
