import LatexPreview.Source.Tags
import LatexPreview.Text.Blank
import LatexPreview.Text.Digit

/-!
# Declarations without a form in HTML

* `declarations` are the patterns that are removed from a document, in order
* `stripDeclarations` removes them
-/

namespace LatexPreview

open Pattern

/-- Which matches of a pattern are removed. -/
inductive Extent where
  | all
  | firstOnly

/-- A command defined by the document itself. -/
def newCommand : Pattern :=
  one (· == '\\') ++ optional (word "re") ++ word "newcommand" ++ optional (one (· == '*'))
    ++ looseArgument
    ++ optional (one (· == '[') ++ many1 (one isDigit) ++ one (· == ']'))
    ++ longArgument "body"

/-- The declarations that are removed, in order. -/
def declarations : List (Pattern × Extent) :=
  [(command "documentclass" ++ looseOption ++ looseArgument, .all),
    (command "usepackage" ++ looseOption ++ looseArgument, .all),
    (opening "document", .firstOnly),
    (closing "document", .firstOnly),
    (command "definecolor" ++ looseArgument ++ looseArgument ++ looseArgument, .all),
    (command "color" ++ looseArgument, .all),
    (command "setlength" ++ looseArgument ++ looseArgument, .all),
    (one (· == '\\') ++ optional (word "this") ++ word "pagestyle" ++ looseArgument, .all),
    (command "geometry" ++ looseArgument, .all),
    (one (· == '\\') ++ one (fun c => c == 'v' || c == 'h') ++ word "space"
      ++ optional (one (· == '*')) ++ looseArgument, .all),
    (newCommand, .all),
    (command "label" ++ looseArgument, .all),
    (one (· == '\\') ++ anyOf (["centering", "noindent", "newpage", "clearpage"].map word)
      ++ wordEnd, .all)]

/-- The text without declarations, and without blanks at its ends. -/
def stripDeclarations (s : Text) : Text :=
  (declarations.foldl (fun s (p, extent) =>
    match extent with
    | .all => p.erase s
    | .firstOnly => p.eraseFirst s) s).trim

end LatexPreview
