/-!
# Texts

A text is a list of characters, so that every operation of the library is a
recursion on its data and positions count code points.

* `Text.between` gives the part of a text in front of one of its ends
* `Text.find?` cuts a text at the first occurrence of another one
* `Text.join` puts a separator between texts
* `between_append`: what stands in front of an end is what was put there
* `find?_eq_some`: the cut loses nothing
-/

namespace LatexPreview

/-- A sequence of code points. -/
abbrev Text := List Char

namespace Text

/-! ## Parts of a text -/

/-- The part of `whole` that stands in front of its end `rest`. -/
def between (whole rest : Text) : Text :=
  whole.take (whole.length - rest.length)

theorem between_append (front rest : Text) : between (front ++ rest) rest = front := by
  simp [between]

/-- `s` without the leading `front`, if it starts with `front`. -/
def dropFront? : (front s : Text) → Option Text
  | [], s => some s
  | _ :: _, [] => none
  | f :: front, c :: s => if f = c then dropFront? front s else none

theorem dropFront?_append (front s : Text) : dropFront? front (front ++ s) = some s := by
  induction front with
  | nil => rfl
  | cons f front ih => simp [dropFront?, ih]

theorem eq_append_of_dropFront? {front s rest : Text} (h : dropFront? front s = some rest) :
    s = front ++ rest := by
  fun_induction dropFront? front s with
  | case1 s => simpa using h
  | case2 => simp at h
  | case3 front c s ih => simp [ih h]
  | case4 => simp at h

/-- Does `s` start with `front`? -/
def startsWith (s front : Text) : Bool := (dropFront? front s).isSome

/-! ## Searching -/

/-- The parts of a text around the first occurrence of `needle`. -/
def find? (needle : Text) : Text → Option (Text × Text)
  | [] => if needle.isEmpty then some ([], []) else none
  | c :: s =>
    match dropFront? needle (c :: s) with
    | some after => some ([], after)
    | none => (find? needle s).map fun (before, after) => (c :: before, after)

theorem find?_eq_some {needle s before after : Text} (h : find? needle s = some (before, after)) :
    s = before ++ needle ++ after := by
  induction s generalizing before with
  | nil =>
    unfold find? at h
    split at h
    · simp_all
    · simp at h
  | cons c s ih =>
    unfold find? at h
    split at h
    · rename_i rest hd
      simp only [Option.some.injEq, Prod.mk.injEq] at h
      obtain ⟨rfl, rfl⟩ := h
      simpa using eq_append_of_dropFront? hd
    · obtain ⟨⟨b, a⟩, hb, he⟩ := Option.map_eq_some_iff.1 h
      simp only [Prod.mk.injEq] at he
      obtain ⟨rfl, rfl⟩ := he
      simp [ih hb]

/-- Does `needle` occur in `s`? -/
def contains (s needle : Text) : Bool := (find? needle s).isSome

/-- The parts of a text between the characters of a class. -/
def splitOn (isSep : Char → Bool) : Text → List Text
  | [] => [[]]
  | c :: s =>
    if isSep c then [] :: splitOn isSep s
    else match splitOn isSep s with
      | [] => [[c]]
      | part :: parts => (c :: part) :: parts

/-- The parts around the last occurrence of one character. -/
def splitLast? (sep : Char) : Text → Option (Text × Text)
  | [] => none
  | c :: s =>
    match splitLast? sep s with
    | some (before, after) => some (c :: before, after)
    | none => if c = sep then some ([], s) else none

/-! ## Building -/

/-- The texts one after the other, with `sep` between neighbours. -/
def join (sep : Text) : List Text → Text
  | [] => []
  | [s] => s
  | s :: t :: more => s ++ sep ++ join sep (t :: more)

/-- `s` with each occurrence of `old` replaced by `new`. -/
def replaceChar (s : Text) (old : Char) (new : Text) : Text :=
  s.flatMap fun c => if c = old then new else [c]

/-- The decimal digits of a number. -/
def ofNat (n : Nat) : Text := Nat.toDigits 10 n

/-- The decimal digits of an integer, with a minus sign in front of a negative one. -/
def ofInt : Int → Text
  | .ofNat n => ofNat n
  | .negSucc n => '-' :: ofNat (n + 1)

/-- `s` filled up on its left to a given width. -/
def padLeft (width : Nat) (fill : Char) (s : Text) : Text :=
  List.replicate (width - s.length) fill ++ s

end Text

end LatexPreview
