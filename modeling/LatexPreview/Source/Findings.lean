import LatexPreview.Source.Braces
import LatexPreview.Source.Environments
import LatexPreview.Source.MathSpans
import LatexPreview.Text.Caseless

/-!
# Findings about a document

The checks of a document's structure. They are made in a fixed order, each reports
what it finds in the order of the text, and none can fail.

* `Finding` is what a check may report; `Finding.message` words it
* `check` runs all checks on a document
* `hasErrors` tells whether the document is unlikely to compile
-/

namespace LatexPreview

/-- How bad a finding is. -/
inductive Severity where
  /-- The document will almost certainly not compile. -/
  | error
  /-- Something is probably wrong. -/
  | warning
  deriving DecidableEq

/-- A declaration that every document needs. -/
inductive Declaration where
  | documentClass
  | beginDocument
  | endDocument
  deriving DecidableEq

/-- The text of a declaration. -/
def Declaration.text : Declaration → Text
  | documentClass => "\\documentclass".toList
  | beginDocument => beginTag "document".toList
  | endDocument => endTag "document".toList

/-- The two kinds of math delimiters that differ at both ends. -/
inductive DelimiterPair where
  | brackets
  | parens
  deriving DecidableEq

namespace DelimiterPair

/-- The delimiter in front of the math. -/
def opener : DelimiterPair → Text
  | brackets => "\\[".toList
  | parens => "\\(".toList

/-- The delimiter behind the math. -/
def closer : DelimiterPair → Text
  | brackets => "\\]".toList
  | parens => "\\)".toList

end DelimiterPair

/-- Something that a check found. -/
inductive Finding where
  | missing (declaration : Declaration)
  | strayBrace
  | unclosedBraces (count : Nat)
  | environment (problem : EnvProblem)
  | imageCommand
  | oddDollars
  | unbalanced (pair : DelimiterPair) (opened closed : Nat)
  | mathInProse (commands : List Text)
  deriving DecidableEq

namespace Finding

/-- How bad the finding is. -/
def severity : Finding → Severity
  | missing _ | strayBrace | unclosedBraces _ | environment _ | imageCommand => .error
  | oddDollars | unbalanced .. | mathInProse _ => .warning

/-- Will the document almost certainly not compile? -/
def isError (f : Finding) : Bool := f.severity == .error

/-- A finding names no more than this many commands. -/
def maxListedCommands : Nat := 5

/-- The wording of a finding. -/
def message : Finding → Text
  | missing .documentClass =>
    "Missing ".toList ++ Declaration.documentClass.text ++ " declaration.".toList
  | missing declaration => "Missing ".toList ++ declaration.text ++ ['.']
  | strayBrace => "Found closing brace \"\x7d\" without matching opening brace.".toList
  | unclosedBraces n =>
    "Found ".toList ++ Text.ofNat n ++ " unclosed brace(s) \"\x7b\".".toList
  | environment problem => problem.message
  | imageCommand =>
    ("\\includegraphics is not supported: image files are not available to the compiler. " ++
      "Remove the command or describe the figure in text.").toList
  | oddDollars => "Unclosed inline math: found an odd number of \"$\" delimiters.".toList
  | unbalanced pair opened closed =>
    "Unbalanced math delimiters: ".toList ++ Text.ofNat opened
      ++ " \"".toList ++ pair.opener ++ "\" but ".toList ++ Text.ofNat closed
      ++ " \"".toList ++ pair.closer ++ "\".".toList
  | mathInProse commands =>
    let listed := Text.join ", ".toList ((commands.take maxListedCommands).map ('\\' :: ·))
    let more := if commands.length > maxListedCommands then ", ...".toList else []
    "Math command(s) used outside math mode: ".toList ++ listed ++ more
      ++ ". Wrap them in $...$ or \\(...\\).".toList

end Finding

/-! ## The checks -/

/-- The declarations that are missing. -/
def checkDeclarations (s : Text) : List Finding :=
  ([.documentClass, .beginDocument, .endDocument] : List Declaration).filter
    (!s.contains ·.text) |>.map .missing

/-- The braces that are left over. -/
def checkBraces (s : Text) : List Finding :=
  match scanBraces s with
  | .stray _ => [.strayBrace]
  | .finished 0 => []
  | .finished n => [.unclosedBraces n]

/-- The tags of environments that do not fit. -/
def checkEnvironments (s : Text) : List Finding := (envProblems s).map .environment

/-- The command for images, in capital or small letters. -/
def imageCommandPattern : Pattern := .caseless "\\includegraphics"

/-- Commands that cannot work. -/
def checkForbidden (s : Text) : List Finding :=
  if imageCommandPattern.occursIn s then [.imageCommand] else []

/-- Inline math that is left open. -/
def checkInlineMath (s : Text) : List Finding :=
  if countSingleDollars s % 2 = 1 then [.oddDollars] else []

/-- Math delimiters that occur more often than their partners. -/
def checkDelimiters (s : Text) : List Finding :=
  [DelimiterPair.brackets, DelimiterPair.parens].flatMap fun pair =>
    let opened := (Pattern.lit pair.opener).count s
    let closed := (Pattern.lit pair.closer).count s
    if opened = closed then [] else [.unbalanced pair opened closed]

/-- Commands of math mode outside of it. -/
def checkProse (s : Text) : List Finding :=
  match mathCommands (blankMath s) with
  | [] => []
  | commands => [.mathInProse commands]

/-- The checks, in the order in which they are made. -/
def checks : List (Text → List Finding) :=
  [checkDeclarations, checkBraces, checkEnvironments, checkForbidden, checkInlineMath,
    checkDelimiters, checkProse]

/-- What the checks find in a document. There is nothing to find in an empty text. -/
def check (s : Text) : List Finding :=
  if s.isEmpty then [] else checks.flatMap fun c => c s

/-- Is there an error among the findings? -/
def hasErrors (findings : List Finding) : Bool := findings.any (·.isError)

end LatexPreview
