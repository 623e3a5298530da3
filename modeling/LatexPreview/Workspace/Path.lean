import LatexPreview.Text.Basic

/-!
# Paths

A path is a text of names with slashes between them.

* `Path.directory` and `Path.name` are its parts around the last slash
* `Path.join` puts a path behind a directory
* `Path.absolute` is the path from the root without detours
* `Path.withoutExtension` cuts off what follows the last dot
* `name_of_no_slash`: a path without slashes is a name
-/

namespace LatexPreview

namespace Path

/-- The names in a path. -/
def names (path : Text) : List Text := path.splitOn (· == '/')

/-- Does a path begin at the root? -/
def isAbsolute (path : Text) : Bool := path.head? == some '/'

/-! ## Around the last slash -/

/-- What follows the last slash. -/
def name (path : Text) : Text :=
  match path.splitLast? '/' with
  | some (_, name) => name
  | none => path

/-- A path without the slashes at its end, unless it has nothing but slashes. -/
def withoutSlashes (path : Text) : Text :=
  if path.all (· == '/') then path else (path.reverse.dropWhile (· == '/')).reverse

/-- What stands in front of the last slash; the slash is kept at the root. -/
def directory (path : Text) : Text :=
  match path.splitLast? '/' with
  | some (front, _) => withoutSlashes (front ++ ['/'])
  | none => []

theorem name_of_no_slash {path : Text} (h : '/' ∉ path) : name path = path := by
  have hs : ∀ s : Text, '/' ∉ s → s.splitLast? '/' = none := by
    intro s hs
    induction s with
    | nil => rfl
    | cons c s ih =>
      simp only [List.mem_cons, not_or] at hs
      simp [Text.splitLast?, ih hs.2, Ne.symm hs.1]
  simp [name, hs path h]

/-- A path behind a directory. A path from the root stays as it is. -/
def join (front path : Text) : Text :=
  if isAbsolute path then path
  else if front.isEmpty || front.getLast? == some '/' then front ++ path
  else front ++ '/' :: path

/-! ## Detours -/

/-- Follows a name from a place below the root, which is given by its names, the last one first:
an empty name or a dot stays there, two dots go up. -/
def enter (place : List Text) (name : Text) : List Text :=
  if name = [] ∨ name = ['.'] then place
  else if name = ['.', '.'] then place.tail
  else name :: place

/-- The root at which a path begins: two slashes differ from one, but more do not. -/
def root (path : Text) : Text :=
  match path with
  | '/' :: '/' :: '/' :: _ => ['/']
  | '/' :: '/' :: _ => ['/', '/']
  | _ => ['/']

/-- A path from the root without detours. -/
def normal (path : Text) : Text :=
  root path ++ Text.join ['/'] ((names path).foldl enter []).reverse

/-- The path from the root to what a path means in a directory. -/
def absolute (front path : Text) : Text := normal (join front path)

/-! ## Extensions -/

/-- A path up to its last dot. -/
def withoutExtension (path : Text) : Text :=
  match path.splitLast? '.' with
  | some (front, _) => front
  | none => path

/-- A path whose extension is replaced. -/
def withExtension (path : Text) (extension : String) : Text :=
  withoutExtension path ++ extension.toList

end Path

end LatexPreview
