import LatexPreview.Convert.Draft
import LatexPreview.Source.MathSpans

/-!
# Lifting math

Math is taken out of a text before any other stage can touch it. What is displayed
becomes a block that holds nothing but math; what stands in a line becomes a token in
the line.

* `liftMath` takes the spans out, kind by kind
* `restoreTokens` puts contents in place of their tokens
-/

namespace LatexPreview

/-- How a kind of span is shown. -/
inductive MathPlace where
  | block
  | inline
  deriving DecidableEq

/-- The kinds of spans, in the order in which they are lifted: longer delimiters come first. -/
def mathSpanKinds : List (Pattern × MathPlace) :=
  [(displayDollars, .block),
    (displayBrackets, .block),
    (displayEnvironment, .block),
    (inlineParens, .inline),
    (inlineDollars, .inline)]

/-- Takes one span out. -/
def liftSpan (place : MathPlace) (source : Text) : Drafting Text := do
  let token ← storeMath source
  match place with
  | .block => addBlock token
  | .inline => pure token

/-- Takes all math out of a text. -/
def liftMath (s : Text) : Drafting Text :=
  mathSpanKinds.foldlM (fun s (p, place) => p.replaceM (fun h => liftSpan place h.matched) s) s

/-- Puts contents in place of the tokens for math. Tokens without content are kept. -/
def restoreTokens (contents : List (Text × Text)) (html : Text) : Text :=
  (placeholderPattern Draft.mathName).replace
    (fun h => (contents.lookup h.matched).getD h.matched) html

end LatexPreview
