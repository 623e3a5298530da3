import LatexPreview.CommandLine.Program

/-!
# The program on a computer

What is left for the outside world: the files that the arguments name are read before the
program runs, and what the program has changed is written afterwards. Neither the service nor
a converter of math nor a cleaner of pages is at hand; a page that is to be cleaned shows
its HTML as text.
-/

namespace LatexPreview

/-- What stands at a place of the computer. -/
def lookAt (place : Place) : IO (Option FileNode) := do
  try
    let bytes ← IO.FS.readBinFile (String.ofList ('/' :: Text.join ['/'] place))
    pure (some (.file bytes.toList))
  catch
    | .inappropriateType .. => pure (some .directory)
    | _ => pure none

/-- The places on the way to a place, and the place itself. -/
def wayTo (place : Place) : List Place := (List.range place.length).map fun n => place.take (n + 1)

/-- Adds what stands on the way to where a path leads. -/
def look (files : Files) (path : Text) : IO Files := do
  let names := (Path.names (Path.absolute files.herePath path)).filter (!·.isEmpty)
  (wayTo names).foldlM (fun files place => do
    match ← lookAt place with
    | some node => pure (files.put place node)
    | none => pure (files.remove place)) files

/-- The files that arguments name. -/
def lookAtAll (files : Files) (args : Arguments) : IO Files := do
  let named := [args.input, args.options.output, args.options.pdf, args.options.cover]
  let files ← (named.filter (!·.isEmpty)).foldlM look files
  let s := settingsFor files args none
  [s.target, s.outputPdf].foldlM look files

/-- Prints what has been printed in a session, and writes the files that it has changed. -/
def settle (before : Files) (session : Session) : IO Unit := do
  IO.print (String.ofList session.printed)
  for (place, node) in session.files.nodes do
    match node with
    | .file content =>
      if before.node? place ≠ some node then
        IO.FS.writeBinFile (String.ofList ('/' :: Text.join ['/'] place)) ⟨content.toArray⟩
    | .directory => pure ()

/-- The host that a computer is. -/
def computer : Host where
  tools := ⟨fun _ _ => .error "Unavailable".toList, Html.escape⟩
  trace := fun e => e.kind.toList
  cacheDir := ".cache/texpreview/".toList ++ programVersion.toList
  mayRead := fun _ => true
  mayWrite := fun _ => true
  patience := 0

/-- A session in the directory of work. Nothing answers a request. -/
def newSession : IO Session := do
  let here ← IO.currentDir
  let names := (Path.names here.toString.toList).filter (!·.isEmpty)
  pure { files := .empty names, answer := fun _ => .unreachable "no connection".toList }

/-- Looks at the source once a second and builds when it has changed. -/
partial def follow (a : Alarm Watch) : IO UInt32 := do
  IO.sleep 1000
  let before := a.inner.session.files
  let files ← look before a.inner.settings.source
  let session := { a.inner.session with files, printed := [] }
  let a := { a with inner := { a.inner with session } }
  let changed := files.at? a.inner.settings.source ≠ before.at? a.inner.settings.source
  let step : Live Unit := do
    if changed then Watch.handle ⟨.modified, false, a.inner.settings.source, []⟩
    Watch.advance (.ofNat 1)
  let (_, a) := step.run a
  settle files a.inner.session
  follow a

/-- Watches the source until the user breaks it off. -/
def live (session : Session) (s : BuildSettings) : IO UInt32 := do
  let session := { session with printed := [] }
  let (_, a) := Watch.enter.run (Watch.begin session s computer.tools computer.trace)
  settle session.files a.inner.session
  follow a

/-- Runs the program with correct arguments. -/
def runOnComputer (args : Arguments) (session : Session) : IO UInt32 := do
  let files ← lookAtAll session.files args
  let (r, after) := (execute computer args).run { session with files }
  settle files after
  match r with
  | .ok none => pure 0
  | .ok (some s) => live after s
  | .error e =>
    IO.eprintln (e.kind ++ ": " ++ String.ofList e.message)
    pure 1

/-- Runs the program. -/
def runMain (args : List String) : IO UInt32 := do
  let session ← newSession
  let args := args.map (·.toList)
  match parseArguments args with
  | .ok args => runOnComputer args session
  | .error _ =>
    let o := runProgram computer args session
    IO.print (String.ofList o.session.printed)
    IO.eprint (String.ofList o.errors)
    pure (match o.exit with
      | .ok n => UInt32.ofNat n
      | .error _ => 1)

end LatexPreview

/-- The entry of the program. -/
def main (args : List String) : IO UInt32 := LatexPreview.runMain args
