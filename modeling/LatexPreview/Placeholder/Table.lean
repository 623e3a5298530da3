import LatexPreview.Pattern.Cut

/-!
# Placeholders

Content may be taken out of a text and replaced by an opaque token, to be put back
later. A token holds only the name of its table, digits and low lines, so that it
passes unchanged through whatever else is done to the text. The tokens of a table
are numbered in the order in which their contents were stored.

* `PlaceholderTable.store` takes content out
* `PlaceholderTable.resolve` puts all contents back: also those inside other contents,
  and also those whose tokens have been lost
-/

namespace LatexPreview

/-- The contents that stand behind the tokens of one name, in the order of their numbers. -/
structure PlaceholderTable where
  name : Text
  contents : List Text

/-- The token with a number. -/
def placeholder (name : Text) (number : Nat) : Text :=
  "__".toList ++ name ++ '_' :: Text.ofNat number ++ "__".toList

/-- Anything that looks like a token of the name. -/
def placeholderPattern (name : Text) : Pattern :=
  .lit ("__".toList ++ name ++ ['_']) ++ .many1 (.one Char.isDigit) ++ .word "__"

namespace PlaceholderTable

/-- A table without contents. -/
def empty (name : Text) : PlaceholderTable := ⟨name, []⟩

/-- The number of contents. -/
def size (t : PlaceholderTable) : Nat := t.contents.length

/-- The tokens, in the order of their numbers. -/
def tokens (t : PlaceholderTable) : List Text := (List.range t.size).map (placeholder t.name)

/-- The tokens with their contents. -/
def entries (t : PlaceholderTable) : List (Text × Text) := t.tokens.zip t.contents

/-- Takes content out: the new token, and the table with the content. -/
def store (t : PlaceholderTable) (content : Text) : Text × PlaceholderTable :=
  (placeholder t.name t.size, { t with contents := t.contents ++ [content] })

/-- Does a text look like a token of the table? -/
def isToken (t : PlaceholderTable) (s : Text) : Bool := (placeholderPattern t.name).matchesAll s

/-! ## Putting contents back -/

/-- Replaces each token by its content, unless its number is among those used before. -/
def expandOnce (t : PlaceholderTable) (s : Text) : StateM (List Nat) Text :=
  (placeholderPattern t.name).replaceM (fun h => do
    let used ← get
    match t.tokens.findIdx? (· == h.matched) with
    | none => pure h.matched
    | some n =>
      if used.contains n then pure h.matched
      else do
        set (n :: used)
        pure (t.contents[n]?.getD [])) s

/-- The tokens whose numbers have not been used. -/
def unused (t : PlaceholderTable) (used : List Nat) : List Text :=
  ((List.range t.size).filter (!used.contains ·)).map (placeholder t.name)

/-- Replaces tokens in at most `fuel` passes. When a pass changes nothing, the tokens that have
not been used are added at the end, and the text is finished once there are none. -/
def resolveFrom (t : PlaceholderTable) : (fuel : Nat) → (used : List Nat) → Text → Text
  | 0, _, s => s
  | fuel + 1, used, s =>
    let (new, used) := (t.expandOnce s).run used
    if new = s then
      match t.unused used with
      | [] => s
      | lost => resolveFrom t fuel used (s ++ lost.flatten)
    else resolveFrom t fuel used new

/-- Puts all contents back. A pass that changes the text uses a token up; one that does not makes
room for another, which at the latest the pass after the next uses. -/
def resolve (t : PlaceholderTable) (s : Text) : Text := t.resolveFrom (4 * (t.size + 1)) [] s

end PlaceholderTable

end LatexPreview
