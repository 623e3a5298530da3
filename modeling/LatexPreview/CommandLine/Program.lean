import LatexPreview.CommandLine.Arguments
import LatexPreview.CommandLine.CoverFile
import LatexPreview.CommandLine.Usage
import LatexPreview.Live.Watch

/-!
# The program

The program reads its arguments, makes sure that it can read and write the files they name,
and only then builds the document. Every check is made even if an earlier one has failed, so
that the user learns of all that is wrong.

* `Host` is what the program finds around it
* `prepare` makes the checks
* `execute` builds, `runProgram` is the whole program
-/

namespace LatexPreview

/-- What the program finds around it. -/
structure Host where
  tools : Tools
  /-- Tells where a fault came from. -/
  trace : Fault → Text
  /-- The directory of the cache. -/
  cacheDir : Text
  /-- Why the cache cannot be opened. -/
  cacheError : Option Text := none
  /-- May what a path leads to be read? -/
  mayRead : Text → Bool
  /-- May what a path leads to be written? -/
  mayWrite : Text → Bool
  /-- After how many seconds of live updating the user breaks it off. -/
  patience : Nat

/-! ## Checks -/

/-- Tells an error. -/
def refuse (text : Text) : Task Bool := do
  report (.error programLocation { text })
  pure false

/-- A text in quotes with others around it. -/
def around (front : String) (text : Text) (back : String) : Text :=
  front.toList ++ '"' :: text ++ '"' :: back.toList

/-- Can a file be read? -/
def checkInput (host : Host) (path : Text) : Task Bool := do
  let files := (← get).files
  if !files.has path then refuse (around "" path " not found")
  else if !files.isFile path then refuse (around "" path " is not a file")
  else if !host.mayRead path then refuse (around "" path " is not readable")
  else pure true

/-- Can a file be written? If it is not there yet, its directory has to be writable. -/
def checkOutput (host : Host) (path : Text) : Task Bool := do
  let files := (← get).files
  let front := Path.directory path
  if files.has path then
    if host.mayWrite path then pure true
    else refuse (around "cannot write output: " path " is not writable")
  else if files.has front && host.mayWrite front then pure true
  else refuse (around "cannot write output: " front " is not writable")

/-- Can the cache be opened? -/
def checkCache (host : Host) : Task Bool := do
  match host.cacheError with
  | none => pure true
  | some reason => refuse ("cannot create/open compile cache: ".toList ++ reason)

/-- Makes all checks of some kind. -/
def checkAll (checkOne : Text → Task Bool) (paths : List Text) : Task Bool := do
  let oks ← paths.mapM checkOne
  pure (oks.all id)

/-! ## Settings -/

/-- The path from the root, or none of an empty path. -/
def absoluteOrNone (files : Files) (path : Text) : Text :=
  if path.isEmpty then [] else Path.absolute files.herePath path

/-- The file for the page: in the directory of the source, in another directory, or another
file. -/
def targetFor (files : Files) (source output : Text) : Text :=
  let base := Path.withoutExtension source
  let out := absoluteOrNone files output
  if output.isEmpty then base ++ ".html".toList
  else if files.isDirectory out then Path.join out (Path.name base) ++ ".html".toList
  else out

/-- The settings that arguments tell. -/
def settingsFor (files : Files) (args : Arguments) (cover : Option CoverPage) : BuildSettings :=
  let o := args.options
  let source := Path.absolute files.herePath args.input
  { source
    target := targetFor files source o.output
    mathMode := o.math
    sanitize := !o.noSanitize
    compile := o.compile
    force := o.force
    pdf := absoluteOrNone files o.pdf
    service := { endpoint := o.endpoint, timeout := o.timeout }
    cover }

/-- A file name, unless it is empty. -/
def given (path : Text) : List Text := if path.isEmpty then [] else [path]

/-- Makes the checks. The cover page is read if all else is well. -/
def prepare (host : Host) (args : Arguments) : Task (Option BuildSettings) := do
  let files := (← get).files
  let s := settingsFor files args none
  let inputs ← checkAll (checkInput host) (args.input :: given args.options.cover)
  let outputs ← checkAll (checkOutput host) (s.target :: given s.pdf)
  let cache ← checkCache host
  if !(inputs && outputs && cache) then pure none
  else if args.options.cover.isEmpty then pure (some s)
  else
    let cover ← readCoverFile args.options.cover
    pure (cover.map fun page => { s with cover := some page })

/-! ## The program -/

/-- What a run of the program leaves behind. -/
structure Outcome where
  /-- The number with which the program ends, unless a fault ends it. -/
  exit : Except Fault Nat
  session : Session
  /-- What has been printed about errors in the arguments. -/
  errors : Text := []
  /-- What has been asked of the one who reports changes. -/
  calls : List ObserverCall := []

/-- Forgets all compiled documents. -/
def clearCache : Task Unit := modify fun s => { s with cache := [], clears := s.clears + 1 }

/-- Prints a text that is no message. -/
def printPlain (text : Text) : Task Unit := modify fun s => { s with printed := s.printed ++ text }

/-- Builds if all is well. The settings are the result if the source is to be watched. -/
def execute (host : Host) (args : Arguments) : Task (Option BuildSettings) := do
  match ← prepare host args with
  | none => pure none
  | some s =>
    if args.options.clean then clearCache
    discard (build host.tools s)
    pure (if args.options.live then some s else none)

/-- Runs the program with correct arguments. -/
def runArguments (host : Host) (args : Arguments) (session : Session) : Outcome :=
  match (execute host args).run session with
  | (.error e, session) => { exit := .error e, session }
  | (.ok none, session) => { exit := .ok 0, session }
  | (.ok (some s), session) =>
    let (r, a) := (Watch.run host.patience none).run (Watch.begin session s host.tools host.trace)
    { exit := r.map fun _ => 0, session := a.inner.session, calls := a.inner.calls }

/-- Runs the program. -/
def runProgram (host : Host) (args : List Text) (session : Session) : Outcome :=
  match parseArguments args with
  | .ok args => runArguments host args session
  | .error .help => { exit := .ok 0, session := ((printPlain help.toList).run session).2 }
  | .error .version =>
    { exit := .ok 0, session := ((printPlain (versionText host.cacheDir)).run session).2 }
  | .error (.error e) => { exit := .ok 2, session, errors := usageError e.message }

end LatexPreview
