import Mathlib
import LatexPreview.Build.Session

/-!
# Tasks

* `Task.run_bind`: a task after another one
* `Session.Told`: nothing has happened but that messages have been told
* `report_run`: what it means to tell a message; messages without details are always told
* `Task.Offline`: a task has nothing to do with the service and its cache
* `Task.Tells`: a task does nothing but tell messages
-/

namespace LatexPreview

variable {α β : Type} {t : Task α} {f : α → Task β} {run : Session}

namespace Task

theorem run_bind (t : Task α) (f : α → Task β) (run : Session) : (t >>= f).run run =
    match t.run run with
    | (.ok a, after) => (f a).run after
    | (.error e, after) => (.error e, after) := by
  change ((t.run >>= ExceptT.bindCont f : StateM Session (Except Fault β)).run run) = _
  rw [StateT.run_bind]
  change ExceptT.bindCont f (t.run run).1 (t.run run).2 = _
  rcases t.run run with ⟨r, after⟩
  cases r <;> rfl

end Task

/-! ## Messages -/

/-- Nothing has happened but that messages have been told. -/
def Session.Told (run after : Session) : Prop := ∃ messages printed,
  after = { run with messages := run.messages ++ messages, printed := run.printed ++ printed }

namespace Session

variable {run mid after : Session}

/-- The number of errors that have been told. -/
def errorCount (run : Session) : Nat := run.messages.countP (·.kind == .error)

theorem Told.refl (run : Session) : Told run run := ⟨[], [], by simp⟩

theorem Told.trans (h : Told run mid) (h' : Told mid after) : Told run after := by
  obtain ⟨messages, printed, rfl⟩ := h
  obtain ⟨messages', printed', rfl⟩ := h'
  exact ⟨messages ++ messages', printed ++ printed', by simp⟩

theorem Told.files (h : Told run after) : after.files = run.files := by
  obtain ⟨messages, printed, rfl⟩ := h
  rfl

theorem Told.columns (h : Told run after) : after.columns = run.columns := by
  obtain ⟨messages, printed, rfl⟩ := h
  rfl

theorem Told.requests (h : Told run after) : after.requests = run.requests := by
  obtain ⟨messages, printed, rfl⟩ := h
  rfl

theorem Told.errorCount_le (h : Told run after) : run.errorCount ≤ after.errorCount := by
  obtain ⟨messages, printed, rfl⟩ := h
  rw [errorCount, errorCount, List.countP_append]
  exact Nat.le_add_right _ _

end Session

/-- The session with another service: its replies, the requests to it and what it has compiled. -/
def Session.withService (run : Session) (cache : Cache) (answer : Nat → Reply)
    (requests : List Request) : Session :=
  { run with cache, answer, requests }

namespace Task

/-- The task has nothing to do with the service and its cache. -/
def Offline (t : Task α) : Prop := ∀ run cache answer requests,
  t.run (run.withService cache answer requests) =
    ((t.run run).1, (t.run run).2.withService cache answer requests)

theorem Offline.pure (a : α) : Offline (pure a : Task α) := fun _ _ _ _ => rfl

theorem Offline.throw (e : Fault) : Offline (throw e : Task α) := fun _ _ _ _ => rfl

theorem Offline.bind (ht : Offline t) (hf : ∀ a, Offline (f a)) : Offline (t >>= f) := by
  intro run cache answer requests
  rw [run_bind, run_bind, ht]
  rcases t.run run with ⟨r, after⟩
  cases r with
  | ok a => exact hf a after cache answer requests
  | error e => rfl

theorem Offline.forM {γ : Type} {g : γ → Task Unit} (hg : ∀ c, Offline (g c)) (l : List γ) :
    Offline (l.forM g) := by
  induction l with
  | nil => exact .pure ()
  | cons c l ih => exact (hg c).bind fun _ => ih

/-- The task does nothing but tell messages. -/
def Tells (t : Task α) : Prop := ∀ run, Session.Told run (t.run run).2

theorem Tells.pure (a : α) : Tells (pure a : Task α) := fun run => .refl run

theorem Tells.bind (ht : Tells t) (hf : ∀ a, Tells (f a)) : Tells (t >>= f) := by
  intro run
  have hfirst := ht run
  rw [run_bind]
  rcases hresult : t.run run with ⟨r, after⟩
  rw [hresult] at hfirst
  cases r with
  | ok a => exact hfirst.trans (hf a after)
  | error e => exact hfirst

end Task

end LatexPreview
