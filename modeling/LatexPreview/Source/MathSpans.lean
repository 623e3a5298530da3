import LatexPreview.Source.Tags

/-!
# Math spans

Where a text is in math mode. The same delimiters matter to the checks, which look
at the text around the math, and to the conversion, which lifts the math out before
anything else can touch it. Double dollars are always looked for before single
ones, since a displayed formula would else be read as two adjacent inline spans.

* `mathEnvironment` is an environment of one of some names, closed by its own name
* `withoutPairedMath` removes the spans that have two different delimiters
* `blankMath` leaves only the prose
* `mathCommands` are the commands that belong into math mode
-/

namespace LatexPreview

open Pattern

/-! ## Patterns of spans -/

/-- One of the names; the empty one if there are none. -/
def nameAmong : List Text → Pattern
  | [] => .done
  | names => .anyOf (names.map .lit)

/-- An environment with one of the names, with or without a star. The closing tag repeats exactly
the name that opened it. -/
def mathEnvironment (names : List Text) : Pattern :=
  command "begin" ++ one (· == '{')
    ++ capture "env" (nameAmong names ++ optional (one (· == '*')))
    ++ one (· == '}') ++ body
    ++ command "end" ++ one (· == '{') ++ again "env" ++ one (· == '}')

/-- `$$…$$` -/
def displayDollars : Pattern := word "$$" ++ body ++ word "$$"

/-- `\[…\]` -/
def displayBrackets : Pattern := word "\\[" ++ body ++ word "\\]"

/-- The environments that display math in a converted document. -/
def displayEnvironment : Pattern :=
  mathEnvironment (["align", "equation", "gather", "multline"].map (·.toList))

/-- `\(…\)` -/
def inlineParens : Pattern := word "\\(" ++ body ++ word "\\)"

/-- A dollar that no backslash stands in front of. -/
def bareDollar : Pattern := notBehind '\\' ++ one (· == '$')

/-- `$…$` within a line. -/
def inlineDollars : Pattern :=
  bareDollar ++ capture "body" (fewest1 (noneOf "$\n")) ++ bareDollar

/-- The spans with two different delimiters and the double dollars. -/
def pairedDelimiters : Pattern := .anyOf [displayDollars, displayBrackets, inlineParens]

/-- A dollar that is not escaped and belongs to no pair of dollars. -/
def singleDollar : Pattern :=
  edge (fun before _ => before != some '\\' && before != some '$')
    ++ one (· == '$') ++ edge (fun _ after => after != some '$')

/-- The environments whose content is math when prose is looked at. -/
def proseEnvironment : Pattern :=
  mathEnvironment
    (["equation", "align", "gather", "math", "displaymath", "multline"].map (·.toList))

/-- `$…$`, also over several lines. -/
def proseDollars : Pattern := bareDollar ++ fewest1 (noneOf "$") ++ bareDollar

/-! ## Prose -/

/-- The text without the spans that have two different delimiters or double dollars. -/
def withoutPairedMath (s : Text) : Text := pairedDelimiters.erase s

/-- The number of single dollars outside of those spans. -/
def countSingleDollars (s : Text) : Nat := singleDollar.count (withoutPairedMath s)

/-- The kinds of spans that prose is cleared of, in the order in which that is done. -/
def proseSpans : List Pattern :=
  [displayDollars, proseEnvironment, displayBrackets, inlineParens, proseDollars]

/-- The text with each math span replaced by a blank. -/
def blankMath (s : Text) : Text :=
  proseSpans.foldl (fun s span => span.replace (fun _ => [' ']) s) s

/-! ## Commands of math mode -/

/-- The names of the commands that belong into math mode, in the order in which they are tried. -/
def mathCommandNames : List String :=
  ["frac", "sqrt", "sum", "int", "prod", "lim",
    "alpha", "beta", "gamma", "delta", "epsilon", "theta", "lambda", "mu", "pi", "sigma",
    "phi", "omega",
    "infty", "partial", "nabla",
    "rightarrow", "leftarrow", "Rightarrow", "Leftrightarrow",
    "leq", "geq", "neq", "approx",
    "times", "div", "pm", "cdot"]

/-- A command of math mode, whose name no letter follows. -/
def mathCommand : Pattern :=
  one (· == '\\') ++ capture "name" (.anyOf (mathCommandNames.map .word)) ++ wordEnd

/-- The commands of math mode in a text, each once, in the order in which they appear first. -/
def mathCommands (s : Text) : List Text :=
  ((mathCommand.cut s).hits.foldl (fun found h =>
    let name := h.get "name"
    if found.contains name then found else name :: found) []).reverse

end LatexPreview
