import LatexPreview.Source.Tags
import LatexPreview.Text.Blank

/-!
# Environments

Do the tags that open and close environments fit together? The tags are read from
left to right with a stack of the open environments. A closing tag of another name
leaves the stack as it is, since the environment that it should have closed is
probably still open: so one mistake is reported once.

* `envTags` are the tags of a text
* `envProblems` are the tags that do not fit, first the closing ones and then the
  environments that stay open
-/

namespace LatexPreview

/-- Which end of an environment a tag stands at. -/
inductive TagSide where
  | opening
  | closing
  deriving DecidableEq

/-- A tag of an environment. -/
structure EnvTag where
  side : TagSide
  name : Text
  position : Nat
  deriving DecidableEq

/-- A tag that does not fit. -/
inductive EnvProblem where
  /-- A closing tag where no environment is open. -/
  | extraEnd (name : Text) (position : Nat)
  /-- A closing tag of another name than that of the innermost open environment. -/
  | mismatch (name : Text) (position : Nat) (expected : Text)
  /-- An environment that stays open. -/
  | unclosed (name : Text) (position : Nat)
  deriving DecidableEq

/-! ## Reading the tags -/

/-- A tag: the command, blanks, and a name in braces. -/
def envTagPattern : Pattern :=
  .one (· == '\\') ++ .capture "side" (.anyOf [.word "begin", .word "end"])
    ++ .many (.one isBlank)
    ++ .one (· == '{') ++ .capture "name" (.many1 (.noneOf "\x7d")) ++ .one (· == '}')

/-- The tags among the matches of a cut whose first match follows a position. -/
def envTagsFrom : Nat → List Hit → List EnvTag
  | _, [] => []
  | n, h :: more =>
    let position := n + h.gap.length
    { side := if h.get "side" = "begin".toList then .opening else .closing
      name := h.get "name"
      position } :: envTagsFrom (position + h.matched.length) more

/-- The tags of a text, from left to right. -/
def envTags (s : Text) : List EnvTag := envTagsFrom 0 (envTagPattern.cut s).hits

/-! ## Pairing them -/

/-- Pairs tags, given the environments that are open, the innermost first. -/
def pairTags : (opened : List EnvTag) → List EnvTag → List EnvProblem
  | opened, [] => opened.reverse.map fun t => .unclosed t.name t.position
  | opened, t :: tags =>
    match t.side, opened with
    | .opening, _ => pairTags (t :: opened) tags
    | .closing, [] => .extraEnd t.name t.position :: pairTags [] tags
    | .closing, top :: below =>
      if top.name = t.name then pairTags below tags
      else .mismatch t.name t.position top.name :: pairTags (top :: below) tags

/-- The tags of a text that do not fit. -/
def envProblems (s : Text) : List EnvProblem := pairTags [] (envTags s)

namespace EnvProblem

/-- The name in the tag. -/
def name : EnvProblem → Text
  | extraEnd n _ | mismatch n _ _ | unclosed n _ => n

/-- The position of the tag. -/
def position : EnvProblem → Nat
  | extraEnd _ p | mismatch _ p _ | unclosed _ p => p

/-- The name that would have fitted. -/
def expected? : EnvProblem → Option Text
  | mismatch _ _ e => some e
  | _ => none

/-- The wording of a problem. -/
def message : EnvProblem → Text
  | extraEnd n _ => "Extra ".toList ++ endTag n ++ " found.".toList
  | mismatch n _ e =>
    "Environment mismatch: Expected ".toList ++ endTag e ++ " but found ".toList ++ endTag n ++ ['.']
  | unclosed n _ => "Unclosed environment: ".toList ++ beginTag n ++ ['.']

end EnvProblem

end LatexPreview
