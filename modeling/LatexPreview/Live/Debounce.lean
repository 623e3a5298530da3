import LatexPreview.Number.Double

/-!
# Debouncing

A burst of triggers is to lead to one call of an action, some time after the last of them.
Each trigger starts a timer and cancels the one before it. Since a timer may fire
although it is being cancelled, triggers and cancellations are numbered: a timer that
fires checks whether its number is still the latest. If it is, its call waits until no
other call is running.

* `Debouncer` is the state, which changes in steps that nothing can interrupt
* `Debouncer.trigger`, `Debouncer.cancel` are the steps from outside
* `Debouncer.check`, `Debouncer.start?`, `Debouncer.finish` are the steps of a call
* `passes_trigger`: only the latest timer passes its check
-/

namespace LatexPreview

/-- What has become of a timer. -/
inductive TimerState where
  | armed
  | cancelled
  | fired
  deriving DecidableEq

/-- A timer. -/
structure Timer where
  due : Double
  /-- The number of the trigger that has started the timer. -/
  generation : Nat
  state : TimerState := .armed
  deriving DecidableEq

/-- The state of a debouncer. -/
structure Debouncer where
  /-- The number of triggers and cancellations so far. -/
  generation : Nat := 0
  /-- The timer of the call that is still to come. -/
  pending : Option Nat := none
  /-- All timers, in the order of their start. -/
  timers : List Timer := []
  /-- The calls that have passed their check and wait for their turn. -/
  waiting : List Nat := []
  /-- The call whose action is running. -/
  running : Option Nat := none

namespace Debouncer

/-- Is a call still to come? -/
def isPending (d : Debouncer) : Bool := d.pending.isSome

/-- The number of armed timers. -/
def armed (d : Debouncer) : Nat := d.timers.countP (·.state == .armed)

/-! ## Steps from outside -/

/-- The timers with the pending one cancelled. It is too late for that if the timer has fired. -/
def cancelPending (d : Debouncer) : List Timer :=
  match d.pending with
  | some n => d.timers.modify n fun t => if t.state = .armed then { t with state := .cancelled } else t
  | none => d.timers

/-- Asks for a call at some time, in place of the one that is pending. -/
def trigger (d : Debouncer) (due : Double) : Debouncer :=
  { d with
    generation := d.generation + 1
    pending := some d.timers.length
    timers := d.cancelPending ++ [{ due, generation := d.generation + 1 }] }

/-- Calls the pending call off. -/
def cancel (d : Debouncer) : Debouncer :=
  { d with generation := d.generation + 1, pending := none, timers := d.cancelPending }

/-! ## Steps of a call -/

/-- Is a timer the one of the latest trigger, with no cancellation since? -/
def passes (d : Debouncer) (n : Nat) : Bool :=
  (d.timers[n]?).any (·.generation == d.generation)

/-- A timer fires. If it passes the check, no call is pending any more, and its call waits. -/
def check (d : Debouncer) (n : Nat) : Debouncer :=
  let timers := d.timers.modify n fun t => { t with state := .fired }
  if d.passes n then { d with timers, pending := none, waiting := d.waiting ++ [d.generation] }
  else { d with timers }

/-- A waiting call starts, unless another one is running. -/
def start? (d : Debouncer) (generation : Nat) : Option Debouncer :=
  if d.running.isNone && d.waiting.contains generation then
    some { d with running := some generation, waiting := d.waiting.erase generation }
  else none

/-- The running call ends. -/
def finish (d : Debouncer) : Debouncer := { d with running := none }

theorem length_cancelPending (d : Debouncer) : d.cancelPending.length = d.timers.length := by
  unfold cancelPending
  split <;> simp

/-- The timer of a trigger passes its check at once. -/
theorem passes_trigger (d : Debouncer) (due : Double) :
    (d.trigger due).passes d.timers.length = true := by
  simp [passes, trigger, ← length_cancelPending d]

/-! ## Due timers -/

/-- The armed timer that is due first, if that is by some time. Of two the older one is first. -/
def nextDue? (d : Debouncer) (limit : Double) : Option (Nat × Double) :=
  d.timers.zipIdx.foldl (fun best (t, n) =>
    if t.state = .armed ∧ t.due.le limit = true then
      match best with
      | some (_, due) => if t.due.lt due then some (n, t.due) else best
      | none => some (n, t.due)
    else best) none

end Debouncer

end LatexPreview
