import LatexPreview.Number.Double
import LatexPreview.Text.Basic

/-!
# JSON values

* `Json` is a value; whole numbers and floating point numbers are told apart
* `Json.put` writes a member of an object: a later one with the same key takes the
  place of the earlier one
-/

namespace LatexPreview

/-- A JSON value. -/
inductive Json where
  | null
  | bool (b : Bool)
  | int (n : Int)
  | float (x : Double)
  | str (s : Text)
  | arr (items : List Json)
  | obj (members : List (Text × Json))

/-- Writes an entry of an ordered map: in place of the entry with the key, or behind all. -/
def put {α : Type} (key : Text) (value : α) : List (Text × α) → List (Text × α)
  | [] => [(key, value)]
  | (k, v) :: more => if k = key then (key, value) :: more else (k, v) :: put key value more

end LatexPreview
