import LatexPreview.Build.Session
import LatexPreview.Build.Settings
import LatexPreview.Page.Document
import LatexPreview.Page.Fragment
import LatexPreview.Source.Findings
import LatexPreview.Source.WordCount

/-!
# Builds

A build reads the source, puts the cover page in, checks the document, writes the page, and
perhaps has the document compiled. A document with errors is compiled only by force.

* `build` is the whole of it
* `writeOutput` writes a file, `compilePdf` has the document compiled
-/

namespace LatexPreview

/-- The helpers that a build makes use of. -/
structure Tools where
  typeset : Typesetter
  clean : Sanitizer

/-- What has come out of a build. -/
structure BuildResult where
  findings : List Finding := []
  htmlWritten : Bool := false
  compiled : Option CompileResult := none

/-- The location in messages about a build. -/
def buildLocation : Text := "building".toList

/-- The location in messages about what has been found in a document. -/
def findingLocation : Text := "validation".toList

/-- Writes a file and tells so; an error is told, too. -/
def writeOutput (path : Text) (content : Bytes) : Task Bool := do
  match (← get).files.write path content with
  | .error (.system e) =>
    report (.error buildLocation { cause := some e.cause })
    pure false
  | .error e => throw (.file e)
  | .ok files =>
    modify fun s => { s with files }
    report (.progress buildLocation (Path.name path ++ " written".toList) [])
    pure true

/-- The source of a document; an error of the system is told. -/
def readSource (path : Text) : Task (Option Text) := do
  match (← get).files.readText path with
  | .ok s => pure (some s)
  | .error (.system e) =>
    report (.error buildLocation
      { text := "cannot read \"".toList ++ path ++ ['"'], cause := some e.cause })
    pure none
  | .error e => throw (.file e)

/-- The message about something that has been found. -/
def findingMessage (f : Finding) : Message :=
  if f.isError then .error findingLocation { text := f.message }
  else .warning findingLocation f.message [] []

/-- Tells what has been found. The messages are shown on the page, too. -/
def reportFindings (found : List Finding) : Task (List Message) := do
  let messages := found.map findingMessage
  messages.forM report
  if found.isEmpty then report (.progress findingLocation "no issues found".toList [])
  pure messages

/-- Has a document compiled. -/
def compilePdf (s : BuildSettings) (latex : Text) : Task CompileResult := do
  let run ← get
  match compile s.service (some run.cache) (run.answer run.requests.length) latex with
  | .error e => throw (.endpoint e)
  | .ok c =>
    if c.request.isSome then report c.message else note c.message
    modify fun run =>
      { run with requests := run.requests ++ c.request.toList, cache := c.cache.getD run.cache }
    match c.result with
    | .failure kind log =>
      report (.error buildLocation
        { text := "compilation failed (".toList ++ kind.name.toList ++ [')'], output := log })
    | .success pdf _ => discard (writeOutput s.outputPdf pdf)
    pure c.result

/-- Has a document compiled, unless errors have been found and there is no force. -/
def compileChecked (s : BuildSettings) (latex : Text) (found : List Finding) :
    Task (Option CompileResult) := do
  if hasErrors found && !s.force then
    report (.warning buildLocation
      ("not compiling, because validation found errors "
        ++ "(use --force to compile anyway)").toList [] [])
    pure none
  else
    let r ← compilePdf s latex
    pure (some r)

/-- The document with its cover page. -/
def addCover (cover : Option CoverPage) (latex : Text) : Task Text := do
  match cover with
  | none => pure latex
  | some page =>
    match injectCoverPage latex page with
    | .ok s => pure s
    | .error e => throw (.cover e)

/-- The page of a document. -/
def buildPage (tools : Tools) (s : BuildSettings) (latex : Text) (messages : List Message) :
    Task Text := do
  let clean : Sanitizer := if s.sanitize then .sparingBlank tools.clean else id
  match renderFragment tools.typeset clean s.mathMode latex with
  | .error e => throw (.mathMode e)
  | .ok (fragment, warnings) =>
    warnings.forM report
    pure (Page.html
      { fragment, messages
        mode := (MathMode.ofName s.mathMode).toOption
        wordCount := some (countWords latex) })

/-- Builds a document. -/
def build (tools : Tools) (s : BuildSettings) : Task BuildResult := do
  report (.progress buildLocation ("reading ".toList ++ Path.name s.source) [])
  match ← readSource s.source with
  | none => pure {}
  | some source =>
    let latex ← addCover s.cover source
    let findings := check latex
    let messages ← reportFindings findings
    let page ← buildPage tools s latex messages
    let htmlWritten ← writeOutput s.target (Utf8.encode page)
    let compiled ← if s.compile then compileChecked s latex findings else pure none
    pure { findings, htmlWritten, compiled }

end LatexPreview
