import LatexPreview.Live.Debounce

/-!
# Alarms

A debouncer on a clock, with an action that works on some state. Timers fire while time
is let pass.

* `Alarm` is the state, `Alarmed` a step
* `Alarm.trigger` and `Alarm.cancel` act on the debouncer now
* `Alarm.fire` fires a timer, `Alarm.advance` lets time pass
-/

namespace LatexPreview

/-- A debouncer on a clock. -/
structure Alarm (σ : Type) where
  /-- The time between a trigger and its call. -/
  delay : Double
  now : Double := .zero false
  debouncer : Debouncer := {}
  /-- What the action works on. -/
  inner : σ

/-- A step that may fail. -/
abbrev Alarmed (ε σ : Type) := ExceptT ε (StateM (Alarm σ))

namespace Alarm

variable {ε σ : Type}

/-- Does something to the debouncer. -/
def change (f : Debouncer → Debouncer) : Alarmed ε σ Unit :=
  modify fun a => { a with debouncer := f a.debouncer }

/-- Asks for a call after the delay. -/
def trigger : Alarmed ε σ Unit :=
  modify fun a => { a with debouncer := a.debouncer.trigger (a.now.add a.delay) }

/-- Calls the pending call off. -/
def cancel : Alarmed ε σ Unit := change Debouncer.cancel

/-- Fires a timer: if it passes its check, the action runs at once. -/
def fire (action : Alarmed ε σ Unit) (n : Nat) : Alarmed ε σ Unit := do
  let passes := (← get).debouncer.passes n
  change (·.check n)
  if passes then
    change fun d => (d.start? d.generation).getD d
    action
    change Debouncer.finish

/-- Sets the clock. -/
def setClock (now : Double) : Alarmed ε σ Unit := modify fun a => { a with now }

/-- Fires the timers that are due by some time, but at most `fuel` of them, each at its own time;
then the clock shows that time. -/
def advanceTo (action : Alarmed ε σ Unit) (limit : Double) : (fuel : Nat) → Alarmed ε σ Unit
  | 0 => setClock limit
  | fuel + 1 => do
    match (← get).debouncer.nextDue? limit with
    | none => setClock limit
    | some (n, due) =>
      setClock due
      fire action n
      advanceTo action limit fuel

/-- Lets time pass. The action triggers again at most `again` times. -/
def advance (action : Alarmed ε σ Unit) (again : Nat) (seconds : Double) : Alarmed ε σ Unit := do
  let a ← get
  advanceTo action (a.now.add seconds) (a.debouncer.armed + again)

end Alarm

end LatexPreview
