import LatexPreview.Text.Basic

/-!
# Messages

What the program tells its user: progress, warnings and errors, each with a place it
is about and with details such as a listing of code.

* `Message` is a message, `Detail` one of its details
* `Detail.isShown` selects the lines of a listing around the highlighted ones
* `Message.progress`, `Message.warning`, `Message.error` make messages
-/

namespace LatexPreview

/-- What a message is about. -/
inductive MessageKind where
  | progress
  | warning
  | error
  deriving DecidableEq

/-- A text that belongs to a message. -/
structure Detail where
  title : String
  content : Text
  /-- Is the text shown line by line, with numbers? -/
  numbered : Bool
  /-- How many lines around the highlighted ones are shown; all if there is no bound. -/
  context : Option Int
  /-- The numbers of the highlighted lines. -/
  highlight : List Int

namespace Detail

/-- A text that is shown as a whole. -/
def plain (title : String) (content : Text) : Detail := ⟨title, content, false, none, []⟩

/-- A listing with numbered lines. -/
def code (content : Text) (context : Option Int) (highlight : List Int) : Detail :=
  ⟨"Code", content, true, context, highlight⟩

/-- Is a line of a listing shown? Without a bound or a highlighted line all are. -/
def isShown (d : Detail) (line : Nat) : Bool :=
  match d.context with
  | none => true
  | some bound =>
    d.highlight.isEmpty || d.highlight.any fun h => ((line : Int) - h).natAbs ≤ bound

end Detail

/-- A message. -/
structure Message where
  kind : MessageKind
  location : Text
  text : Text
  details : List Detail

/-- What made something fail. -/
structure Cause where
  /-- The name of the kind of failure. -/
  name : Text
  /-- The wording of the failure. -/
  text : Text

/-- What an error message is made from. An empty text counts as none. -/
structure ErrorReport where
  text : Text := []
  cause : Option Cause := none
  /-- Where the cause came from, if that is to be shown. -/
  trace : Option Text := none
  output : Text := []
  code : Text := []
  highlight : List Int := []
  context : Option Int := some 6

namespace Message

/-- The details of a text, unless the text is empty. -/
def whenPresent (s : Text) (d : Detail) : List Detail := if s.isEmpty then [] else [d]

/-- Tells how far the work has come, perhaps with some advice. -/
def progress (location text advice : Text) : Message :=
  ⟨.progress, location, text, whenPresent advice (.plain "Advice" advice)⟩

/-- Tells that work has been saved by a stored result. -/
def cacheHit (location resource : Text) : Message :=
  let what := if resource.isEmpty then [] else " for ".toList ++ resource
  progress location ("Using cached value".toList ++ what) []

/-- Warns, perhaps with some code. -/
def warning (location text code : Text) (highlight : List Int) : Message :=
  ⟨.warning, location, text, whenPresent code (.code code (some 2) highlight)⟩

/-- The text of an error with its cause. -/
def errorText (r : ErrorReport) : Text :=
  match r.cause with
  | some c =>
    if r.text.isEmpty then c.text
    else r.text ++ ": ".toList ++ c.text ++ " (".toList ++ c.name ++ [')']
  | none => if r.text.isEmpty then "error".toList else r.text

/-- Reports an error. -/
def error (location : Text) (r : ErrorReport) : Message :=
  let trace := match r.cause, r.trace with
    | some _, some trace => [.plain "Traceback" trace]
    | _, _ => []
  ⟨.error, location, errorText r,
    trace ++ whenPresent r.output (.plain "Output" r.output)
      ++ whenPresent r.code (.code r.code r.context r.highlight)⟩

/-- The mark in front of the location. -/
def tag (m : Message) : String :=
  match m.kind with
  | .progress => ""
  | .warning => "[!] "
  | .error => "[!!] "

end Message

end LatexPreview
