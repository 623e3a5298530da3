import LatexPreview.Build.Run
import LatexPreview.Live.Alarm

/-!
# Live updating

While a source is being edited, it is built again whenever it changes. Whoever reports
changes reports those of all files in the directory of the source; only changes of the
source itself count, and a burst of them leads to one build.

* `FileEvent` is a reported change, `Watch.concerns` tells whether it counts
* `Watch.handle` takes an event, `Watch.rebuild` builds
* `Watch.start`, `Watch.stop` begin and end the watching, `Watch.run` does both and tells the user
-/

namespace LatexPreview

/-- What can happen to a file. -/
inductive FileChange where
  | modified
  | created
  /-- Somebody has finished writing. -/
  | closed
  | moved
  | deleted
  deriving DecidableEq

/-- A change in a directory. -/
structure FileEvent where
  change : FileChange
  isDirectory : Bool
  path : Text
  /-- Where a file has been moved. -/
  destination : Text := []

/-- What is asked of the one who reports changes. -/
inductive ObserverCall where
  | schedule (directory : Text)
  | start
  | stop
  | join

/-- The state of live updating. -/
structure Watch where
  session : Session
  settings : BuildSettings
  tools : Tools
  /-- Tells where a fault came from. -/
  trace : Fault → Text
  /-- How many builds there have been. -/
  updates : Nat := 0
  /-- Has there been a build since somebody waited for one? -/
  updated : Bool := false
  /-- Are changes being reported? -/
  watching : Bool := false
  calls : List ObserverCall := []

/-- A step of live updating. -/
abbrev Live := Alarmed Fault Watch

/-- The location in messages about live updating. -/
def liveLocation : Text := "Live updating".toList

namespace Watch

/-- The state before live updating begins. -/
def begin (session : Session) (settings : BuildSettings) (tools : Tools) (trace : Fault → Text) :
    Alarm Watch :=
  { delay := settings.debounce.value, inner := { session, settings, tools, trace } }

/-- The path of the source from the root. -/
def source (w : Watch) : Text := Path.absolute w.session.files.herePath w.settings.source

/-- Changes the state. -/
def update (f : Watch → Watch) : Live Unit := modify fun a => { a with inner := f a.inner }

/-- Does a task of the session. -/
def inSession {α : Type} (task : Task α) : Live α := do
  let a ← get
  let (r, session) := task.run a.inner.session
  set { a with inner := { a.inner with session } }
  match r with
  | .ok x => pure x
  | .error e => throw e

/-! ## Builds -/

/-- What is done about a fault in a build: the next change may well mend it. -/
def tellFault (trace : Fault → Text) (e : Fault) : Task Unit :=
  match e with
  | .endless => throw .endless
  | e => report (.error liveLocation { cause := some e.cause, trace := some (trace e) })

/-- Builds. A fault is told, and the watching goes on. -/
def rebuild : Live Unit := do
  let w := (← get).inner
  inSession (tryCatch (discard (build w.tools w.settings)) (tellFault w.trace))
  update fun w => { w with updates := w.updates + 1, updated := true }

/-- Has there been a build since the last time of asking? -/
def takeUpdate : Live Bool := do
  let updated := (← get).inner.updated
  update fun w => { w with updated := false }
  pure updated

/-! ## Changes -/

/-- Does a path lead to the source? -/
def isSource (w : Watch) (path : Text) : Bool :=
  Path.absolute w.session.files.herePath path == w.source

/-- Does a change call for a build? Some editors move a new file to the place of the source. -/
def concerns (w : Watch) (e : FileEvent) : Bool :=
  match e.change with
  | .modified | .created => !e.isDirectory && w.isSource e.path
  | .closed => w.isSource e.path
  | .moved => w.isSource e.destination || w.isSource e.path
  | .deleted => false

/-- Takes a change. -/
def handle (e : FileEvent) : Live Unit := do
  if (← get).inner.concerns e then Alarm.trigger

/-- Fires a timer. -/
def fire (n : Nat) : Live Unit := Alarm.fire rebuild n

/-- Lets time pass. A build does not change its source. -/
def advance (seconds : Double) : Live Unit := Alarm.advance rebuild 0 seconds

/-! ## Watching -/

/-- Begins the watching. -/
def start : Live Unit := do
  let w := (← get).inner
  if w.watching then throw .watching
  update fun w =>
    { w with watching := true, calls := w.calls ++ [.schedule (Path.directory w.source), .start] }

/-- Ends the watching. A pending build is called off. -/
def stop : Live Unit := do
  Alarm.cancel
  update fun w =>
    { w with watching := false, calls := w.calls ++ if w.watching then [.stop, .join] else [] }

/-- Sleeps a second at a time. -/
def sleep : (seconds : Nat) → Live Unit
  | 0 => pure ()
  | n + 1 => do
    advance (.ofNat 1)
    sleep n

/-- Begins the watching and tells the user. -/
def enter : Live Unit := do
  start
  let w := (← get).inner
  inSession (report (.progress liveLocation
    ("Monitoring changes to ".toList ++ Path.name w.source ++ ".".toList)
    "Press Ctrl-C to quit.".toList))

/-- Watches for some seconds, until the user breaks it off or something else does. -/
def run (seconds : Nat) (breach : Option Text) : Live Unit := do
  enter
  sleep seconds
  stop
  match breach with
  | some reason => throw (.broken reason)
  | none => pure ()

end Watch

end LatexPreview
