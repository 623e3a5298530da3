import LatexPreview.Source.MathSpans
import LatexPreview.Text.Blank

/-!
# Delimiters of math

* `splitDelimiters` divides the source of math into its content and the way it is shown
-/

namespace LatexPreview

open Pattern

/-- The content of math, and whether it stands on a line of its own. -/
structure MathContent where
  body : Text
  display : Bool
  deriving DecidableEq

/-- Any text of math between delimiters, kept under a label. -/
def inside (label : String) : Pattern := capture label (fewest any)

/-- An environment with its content. Either tag may have a star. -/
def anyEnvironment : Pattern :=
  command "begin" ++ one (· == '{') ++ capture "env" (many1 (one Char.isLower))
    ++ optional (one (· == '*')) ++ one (· == '}')
    ++ inside "content"
    ++ command "end" ++ one (· == '{') ++ again "env"
    ++ optional (one (· == '*')) ++ one (· == '}')

/-- Math with its delimiters, perhaps between blanks. -/
def delimitedMath : Pattern :=
  many (one isBlank)
    ++ anyOf [word "$$" ++ inside "dollars" ++ word "$$",
      word "\\[" ++ inside "brackets" ++ word "\\]",
      word "\\(" ++ inside "parens" ++ word "\\)",
      word "$" ++ inside "dollar" ++ word "$",
      anyEnvironment]
    ++ many (one isBlank)

/-- The environments whose content is aligned. -/
def alignedEnvironments : List Text := ["align", "gather", "multline"].map (·.toList)

/-- The content of aligned environments keeps an environment around it. -/
def alignedBody (env body : Text) : Text :=
  if alignedEnvironments.contains env then
    beginTag "aligned".toList ++ body ++ endTag "aligned".toList
  else body

/-- The content of math without its delimiters. Text without delimiters is shown in the line. -/
def splitDelimiters (source : Text) : MathContent :=
  match delimitedMath.whole? source with
  | none => ⟨source, false⟩
  | some c =>
    match c.get? "env" with
    | some env => ⟨alignedBody env ((c.get? "content").getD []), true⟩
    | none =>
      let found := [("dollars", true), ("brackets", true), ("parens", false), ("dollar", false)]
        |>.findSome? fun (label, display) => (c.get? label).map fun body => ⟨body, display⟩
      found.getD ⟨source, false⟩

end LatexPreview
