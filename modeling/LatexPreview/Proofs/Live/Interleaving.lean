import Mathlib
import LatexPreview.Live.Debounce

/-!
# Debouncing under every interleaving

Triggers and cancellations come from any thread, each timer has a thread of its own, and an action
starts when no other one is running. What follows holds for every order in which their steps may
come. A timer fires at most once, but it may fire although it has been cancelled.

* `DebouncerStep` is what happens at once, `Debouncer.step?` and `Debouncer.run?` carry it out
* `Debouncer.Sound` holds after every run, by `Debouncer.Sound.step` and `Debouncer.sound_run`
* `Debouncer.last_change_is_kept`: no two actions run at a time, no trigger leads to two of them, and
  the last trigger of a burst is not lost
* `Debouncer.starts_after_call_iff`: what is left of earlier triggers after a trigger or a
  cancellation
-/

namespace LatexPreview

/-- What can happen to a debouncer at once. -/
inductive DebouncerStep where
  | trigger (due : Double)
  | cancel
  /-- A timer fires, and its call checks whether it is still wanted. -/
  | check (timer : Nat)
  /-- A call that has passed its check starts its action. -/
  | start (generation : Nat)
  | finish

namespace DebouncerStep

/-- Does a step come from outside? -/
def isCall : DebouncerStep → Bool
  | trigger _ | cancel => true
  | check _ | start _ | finish => false

/-- The number of the trigger whose action a step starts. -/
def started? : DebouncerStep → Option Nat
  | start generation => some generation
  | trigger _ | cancel | check _ | finish => none

/-- Does a step end an action? -/
def isFinish : DebouncerStep → Bool
  | finish => true
  | trigger _ | cancel | check _ | start _ => false

end DebouncerStep

open DebouncerStep

/-- The triggers and cancellations of a run. They are numbered in this order, from 1. -/
def callsOf (steps : List DebouncerStep) : List DebouncerStep := steps.filter isCall

/-- The numbers of the triggers whose actions start in a run. -/
def startsOf (steps : List DebouncerStep) : List Nat := steps.filterMap started?

/-- The number of actions that end in a run. -/
def finishesOf (steps : List DebouncerStep) : Nat := steps.countP isFinish

namespace Debouncer

/-- One step, if it is possible. -/
def step? (d : Debouncer) : DebouncerStep → Option Debouncer
  | .trigger due => some (d.trigger due)
  | .cancel => some d.cancel
  | .check n => if (d.timers[n]?).any (·.state != .fired) then some (d.check n) else none
  | .start generation => d.start? generation
  | .finish => if d.running.isSome then some d.finish else none

/-- Several steps, one after the other. -/
def run? (d : Debouncer) (steps : List DebouncerStep) : Option Debouncer := steps.foldlM step? d

variable {d d' : Debouncer} {steps : List DebouncerStep}

theorem run?_append (d : Debouncer) (steps more : List DebouncerStep) :
    d.run? (steps ++ more) = (d.run? steps).bind (·.run? more) := List.foldlM_append

theorem run?_cons (d : Debouncer) (s : DebouncerStep) (steps : List DebouncerStep) :
    d.run? (s :: steps) = (d.step? s).bind (·.run? steps) := List.foldlM_cons

theorem run?_singleton (d : Debouncer) (s : DebouncerStep) : d.run? [s] = d.step? s := by
  rw [run?_cons]
  cases d.step? s <;> rfl

/-! ## Timers -/

theorem map_modify_eq {α β : Type} {f : α → α} {g : α → β} (h : ∀ a, g (f a) = g a) (l : List α)
    (n : Nat) : (l.modify n f).map g = l.map g := by
  refine List.ext_getElem? fun m => ?_
  rw [List.getElem?_map, List.getElem?_map, List.getElem?_modify]
  cases l[m]? with
  | none => rfl
  | some a =>
    by_cases hm : n = m
    · simp [hm, h]
    · simp [hm]

/-- Calling the pending call off changes nothing of a timer but that it is armed. -/
theorem map_cancelPending {β : Type} {g : Timer → β}
    (h : ∀ t : Timer, t.state = .armed → g { t with state := .cancelled } = g t) (d : Debouncer) :
    d.cancelPending.map g = d.timers.map g := by
  unfold cancelPending
  split
  · refine map_modify_eq (fun t => ?_) _ _
    by_cases harmed : t.state = .armed
    · simp [harmed, h]
    · simp [harmed]
  · rfl

/-- A timer that has fired, has fired. -/
theorem fired_cancelPending {g : Nat} (h : ∃ t ∈ d.timers, t.generation = g ∧ t.state = .fired) :
    ∃ t ∈ d.cancelPending, t.generation = g ∧ t.state = .fired := by
  have hmap : d.cancelPending.map (fun t => (t.generation, t.state == .fired)) =
      d.timers.map (fun t => (t.generation, t.state == .fired)) :=
    map_cancelPending (fun t harmed => by simp [harmed]) d
  obtain ⟨t, ht, rfl, hfired⟩ := h
  have hmem : (t.generation, t.state == .fired) ∈
      d.cancelPending.map (fun t => (t.generation, t.state == .fired)) :=
    hmap ▸ List.mem_map_of_mem ht
  obtain ⟨u, hu, hmark⟩ := List.mem_map.1 hmem
  simp only [Prod.mk.injEq, hfired, beq_self_eq_true, beq_iff_eq] at hmark
  exact ⟨u, hu, hmark⟩

theorem fired_modify {g n : Nat} (h : ∃ t ∈ d.timers, t.generation = g ∧ t.state = .fired) :
    ∃ t ∈ d.timers.modify n fun t => { t with state := .fired },
      t.generation = g ∧ t.state = .fired := by
  obtain ⟨t, ht, rfl, hfired⟩ := h
  obtain ⟨m, hm⟩ := List.mem_iff_getElem?.1 ht
  by_cases hn : n = m
  · refine ⟨{ t with state := .fired }, List.mem_iff_getElem?.2 ⟨m, ?_⟩, rfl, rfl⟩
    simp [hn, hm]
  · refine ⟨t, List.mem_iff_getElem?.2 ⟨m, ?_⟩, rfl, hfired⟩
    simp [hn, hm]

/-! ## What holds at every time -/

/-- What holds after a run. -/
structure Sound (steps : List DebouncerStep) (d : Debouncer) : Prop where
  generation : d.generation = (callsOf steps).length
  /-- Each timer is numbered like the trigger that has started it. -/
  triggered : ∀ t ∈ d.timers, 0 < t.generation ∧ t.generation ≤ d.generation ∧
    (callsOf steps)[t.generation - 1]? = some (.trigger t.due)
  distinct : (d.timers.map (·.generation)).Nodup
  /-- The pending timer is the latest one, and is still to fire. -/
  pending : ∀ {n}, d.pending = some n →
    ∃ t, d.timers[n]? = some t ∧ t.generation = d.generation ∧ t.state = .armed
  /-- No call passes its check twice. -/
  once : (d.waiting ++ startsOf steps).Nodup
  fired : ∀ g ∈ d.waiting ++ startsOf steps, ∃ t ∈ d.timers, t.generation = g ∧ t.state = .fired
  /-- If the latest trigger has not been called off, it is pending or has passed its check. -/
  latest : ∀ {due}, (callsOf steps).getLast? = some (.trigger due) → d.pending = none →
    d.generation ∈ d.waiting ++ startsOf steps
  running : ∀ {g}, d.running = some g → g ∈ startsOf steps
  balance : (startsOf steps).length = finishesOf steps + d.running.toList.length

namespace Sound

theorem init : Sound [] {} where
  generation := rfl
  triggered := by simp
  distinct := List.nodup_nil
  pending := by simp
  once := List.nodup_nil
  fired := by simp [startsOf]
  latest := by simp [callsOf]
  running := by simp
  balance := rfl

/-- The timers there are after the pending one has been called off. -/
theorem triggered_cancelPending (h : Sound steps d) (s : DebouncerStep) :
    ∀ t ∈ d.cancelPending, 0 < t.generation ∧ t.generation ≤ d.generation ∧
      (callsOf steps ++ [s])[t.generation - 1]? = some (.trigger t.due) := by
  have hmap : d.cancelPending.map (fun t => (t.generation, t.due)) =
      d.timers.map (fun t => (t.generation, t.due)) := map_cancelPending (fun _ _ => rfl) d
  intro t ht
  have hmem : (t.generation, t.due) ∈ d.timers.map (fun t => (t.generation, t.due)) :=
    hmap ▸ List.mem_map_of_mem ht
  obtain ⟨u, hu, horigin⟩ := List.mem_map.1 hmem
  obtain ⟨hgeneration, hdue⟩ := Prod.mk.inj horigin
  obtain ⟨hpos, hle, hcall⟩ := h.triggered u hu
  rw [← hgeneration, ← hdue]
  refine ⟨hpos, hle, ?_⟩
  rw [List.getElem?_append_left (by rw [← h.generation]; omega), hcall]

theorem trigger (h : Sound steps d) (due : Double) :
    Sound (steps ++ [.trigger due]) (d.trigger due) := by
  have hcalls : callsOf (steps ++ [.trigger due]) = callsOf steps ++ [.trigger due] := by
    simp [callsOf, isCall]
  have hstarts : startsOf (steps ++ [.trigger due]) = startsOf steps := by simp [startsOf, started?]
  have hgeneration : (d.trigger due).generation = d.generation + 1 := rfl
  have htimers : (d.trigger due).timers =
      d.cancelPending ++ [{ due, generation := d.generation + 1 }] := rfl
  constructor
  case generation => rw [hgeneration, hcalls, List.length_append, h.generation]; rfl
  case triggered =>
    intro t ht
    rw [htimers, List.mem_append, List.mem_singleton] at ht
    rw [hgeneration, hcalls]
    rcases ht with ht | rfl
    · obtain ⟨hpos, hle, hcall⟩ := h.triggered_cancelPending (.trigger due) t ht
      exact ⟨hpos, Nat.le_succ_of_le hle, hcall⟩
    · refine ⟨Nat.succ_pos _, Nat.le_refl _, ?_⟩
      rw [Nat.add_sub_cancel, h.generation, List.getElem?_concat_length]
  case distinct =>
    rw [htimers, List.map_append, map_cancelPending (fun _ _ => rfl)]
    refine List.nodup_append.2 ⟨h.distinct, List.nodup_singleton _, fun a ha b hb hab => ?_⟩
    obtain ⟨t, ht, rfl⟩ := List.mem_map.1 ha
    have hle := (h.triggered t ht).2.1
    have hnew : b = d.generation + 1 := by simpa using hb
    omega
  case pending =>
    intro n hn
    obtain rfl : d.timers.length = n := Option.some.inj hn
    refine ⟨{ due, generation := d.generation + 1 }, ?_, rfl, rfl⟩
    rw [htimers, ← length_cancelPending, List.getElem?_concat_length]
  case once => exact hstarts ▸ h.once
  case fired =>
    intro g hg
    obtain ⟨t, ht, hfired⟩ := fired_cancelPending (h.fired g (hstarts ▸ hg))
    exact ⟨t, List.mem_append_left _ ht, hfired⟩
  case latest => exact fun _ hnone => absurd hnone (by simp [Debouncer.trigger])
  case running => exact fun hg => hstarts ▸ h.running hg
  case balance => simpa [hstarts, finishesOf, isFinish, Debouncer.trigger] using h.balance

theorem cancel (h : Sound steps d) : Sound (steps ++ [.cancel]) d.cancel := by
  have hcalls : callsOf (steps ++ [.cancel]) = callsOf steps ++ [.cancel] := by
    simp [callsOf, isCall]
  have hstarts : startsOf (steps ++ [.cancel]) = startsOf steps := by simp [startsOf, started?]
  have hgeneration : d.cancel.generation = d.generation + 1 := rfl
  constructor
  case generation => rw [hgeneration, hcalls, List.length_append, h.generation]; rfl
  case triggered =>
    intro t ht
    obtain ⟨hpos, hle, hcall⟩ := h.triggered_cancelPending .cancel t ht
    exact ⟨hpos, Nat.le_succ_of_le hle, hcalls ▸ hcall⟩
  case distinct =>
    have hmap : d.cancelPending.map (·.generation) = d.timers.map (·.generation) :=
      map_cancelPending (fun _ _ => rfl) d
    exact hmap ▸ h.distinct
  case pending => exact fun hn => absurd hn (by simp [Debouncer.cancel])
  case once => exact hstarts ▸ h.once
  case fired => exact fun g hg => fired_cancelPending (h.fired g (hstarts ▸ hg))
  case latest =>
    intro due hlast _
    rw [hcalls, List.getLast?_concat] at hlast
    exact absurd hlast (by simp)
  case running => exact fun hg => hstarts ▸ h.running hg
  case balance => simpa [hstarts, finishesOf, isFinish, Debouncer.cancel] using h.balance

/-- The timers there are after one of them has fired. -/
theorem triggered_modify (h : Sound steps d) (n : Nat) :
    ∀ t ∈ d.timers.modify n fun t => { t with state := .fired },
      0 < t.generation ∧ t.generation ≤ d.generation ∧
        (callsOf steps)[t.generation - 1]? = some (.trigger t.due) := by
  have hmap : (d.timers.modify n fun t => { t with state := .fired }).map
      (fun t => (t.generation, t.due)) = d.timers.map (fun t => (t.generation, t.due)) :=
    map_modify_eq (f := fun t : Timer => { t with state := .fired }) (fun _ => rfl) _ _
  intro t ht
  have hmem : (t.generation, t.due) ∈ d.timers.map (fun t => (t.generation, t.due)) :=
    hmap ▸ List.mem_map_of_mem ht
  obtain ⟨u, hu, horigin⟩ := List.mem_map.1 hmem
  obtain ⟨hgeneration, hdue⟩ := Prod.mk.inj horigin
  rw [← hgeneration, ← hdue]
  exact h.triggered u hu

theorem distinct_modify (h : Sound steps d) (n : Nat) :
    ((d.timers.modify n fun t => { t with state := .fired }).map (·.generation)).Nodup := by
  have hmap : (d.timers.modify n fun t => { t with state := .fired }).map (·.generation) =
      d.timers.map (·.generation) :=
    map_modify_eq (f := fun t : Timer => { t with state := .fired }) (fun _ => rfl) _ _
  exact hmap ▸ h.distinct

/-- A timer that has not fired yet fires, and its call passes the check if it is the latest. -/
theorem check (h : Sound steps d) {n : Nat} {t : Timer} (htimer : d.timers[n]? = some t)
    (hstate : t.state ≠ .fired) : Sound (steps ++ [.check n]) (d.check n) := by
  have hcalls : callsOf (steps ++ [.check n]) = callsOf steps := by simp [callsOf, isCall]
  have hstarts : startsOf (steps ++ [.check n]) = startsOf steps := by simp [startsOf, started?]
  have hfinishes : finishesOf (steps ++ [.check n]) = finishesOf steps := by
    simp [finishesOf, isFinish]
  have hmem : t ∈ d.timers := List.mem_of_getElem? htimer
  unfold Debouncer.check
  by_cases hpasses : d.passes n = true
  · have hlatest : t.generation = d.generation := by simpa [passes, htimer] using hpasses
    have hperm : ((d.waiting ++ [d.generation]) ++ startsOf steps).Perm
        (d.generation :: (d.waiting ++ startsOf steps)) := by simp
    rw [if_pos hpasses]
    constructor
    case generation => rw [hcalls]; exact h.generation
    case triggered => rw [hcalls]; exact h.triggered_modify n
    case distinct => exact h.distinct_modify n
    case pending => simp
    case once =>
      rw [hstarts, hperm.nodup_iff, List.nodup_cons]
      refine ⟨fun hpassed => ?_, h.once⟩
      -- A call with this number that has passed its check has a timer that has fired: this one.
      obtain ⟨u, hu, hgeneration, hfired⟩ := h.fired _ hpassed
      obtain rfl := List.inj_on_of_nodup_map h.distinct hu hmem (hgeneration.trans hlatest.symm)
      exact hstate hfired
    case fired =>
      intro g hg
      rw [hstarts, hperm.mem_iff, List.mem_cons] at hg
      rcases hg with rfl | hg
      · refine ⟨{ t with state := .fired }, List.mem_iff_getElem?.2 ⟨n, ?_⟩, hlatest, rfl⟩
        simp [htimer]
      · exact fired_modify (h.fired g hg)
    case latest => simp
    case running => rw [hstarts]; exact h.running
    case balance => rw [hstarts, hfinishes]; exact h.balance
  · rw [if_neg hpasses]
    constructor
    case generation => rw [hcalls]; exact h.generation
    case triggered => rw [hcalls]; exact h.triggered_modify n
    case distinct => exact h.distinct_modify n
    case pending =>
      intro m hm
      obtain ⟨u, hu, hgeneration, harmed⟩ := h.pending hm
      have hne : n ≠ m := by
        rintro rfl
        exact hpasses (by simp [passes, hu, hgeneration])
      exact ⟨u, by simp [hne, hu], hgeneration, harmed⟩
    case once => rw [hstarts]; exact h.once
    case fired =>
      intro g hg
      rw [hstarts] at hg
      exact fired_modify (h.fired g hg)
    case latest => rw [hcalls, hstarts]; exact h.latest
    case running => rw [hstarts]; exact h.running
    case balance => rw [hstarts, hfinishes]; exact h.balance

/-- A waiting call starts its action. -/
theorem start (h : Sound steps d) {g : Nat} (hstart : d.start? g = some d') :
    Sound (steps ++ [.start g]) d' := by
  have hcalls : callsOf (steps ++ [.start g]) = callsOf steps := by simp [callsOf, isCall]
  have hstarts : startsOf (steps ++ [.start g]) = startsOf steps ++ [g] := by
    simp [startsOf, started?]
  have hfinishes : finishesOf (steps ++ [.start g]) = finishesOf steps := by
    simp [finishesOf, isFinish]
  rw [start?, Option.ite_none_right_eq_some] at hstart
  obtain ⟨henabled, hd'⟩ := hstart
  obtain rfl := Option.some.inj hd'
  rw [Bool.and_eq_true, Option.isNone_iff_eq_none, List.contains_iff_mem] at henabled
  obtain ⟨hnone, hwaits⟩ := henabled
  have hperm : (d.waiting.erase g ++ (startsOf steps ++ [g])).Perm (d.waiting ++ startsOf steps) := by
    have hback : (g :: d.waiting.erase g).Perm d.waiting := (List.perm_cons_erase hwaits).symm
    rw [← List.append_assoc]
    exact List.perm_append_comm.trans (hback.append_right (startsOf steps))
  constructor
  case generation => rw [hcalls]; exact h.generation
  case triggered => rw [hcalls]; exact h.triggered
  case distinct => exact h.distinct
  case pending => exact h.pending
  case once => rw [hstarts]; exact hperm.nodup_iff.2 h.once
  case fired => rw [hstarts]; exact fun m hm => h.fired m (hperm.mem_iff.1 hm)
  case latest =>
    rw [hcalls, hstarts]
    exact fun hlast hpending => hperm.mem_iff.2 (h.latest hlast hpending)
  case running =>
    intro m hm
    rw [hstarts, ← Option.some.inj hm]
    exact List.mem_append_right _ (List.mem_singleton_self g)
  case balance =>
    have hbalance := h.balance
    rw [hnone] at hbalance
    simpa [hstarts, hfinishes] using hbalance

/-- The running action ends. -/
theorem finish (h : Sound steps d) (hrunning : d.running.isSome = true) :
    Sound (steps ++ [.finish]) d.finish := by
  have hcalls : callsOf (steps ++ [.finish]) = callsOf steps := by simp [callsOf, isCall]
  have hstarts : startsOf (steps ++ [.finish]) = startsOf steps := by simp [startsOf, started?]
  have hfinishes : finishesOf (steps ++ [.finish]) = finishesOf steps + 1 := by
    simp [finishesOf, isFinish]
  obtain ⟨g, hg⟩ := Option.isSome_iff_exists.1 hrunning
  constructor
  case generation => rw [hcalls]; exact h.generation
  case triggered => rw [hcalls]; exact h.triggered
  case distinct => exact h.distinct
  case pending => exact h.pending
  case once => rw [hstarts]; exact h.once
  case fired => rw [hstarts]; exact h.fired
  case latest => rw [hcalls, hstarts]; exact h.latest
  case running => exact fun hm => absurd hm (by simp [Debouncer.finish])
  case balance => simpa [hstarts, hfinishes, hg, Debouncer.finish] using h.balance

/-- One step. -/
theorem step (h : Sound steps d) {s : DebouncerStep} (hstep : d.step? s = some d') :
    Sound (steps ++ [s]) d' := by
  cases s with
  | trigger due => exact Option.some.inj hstep ▸ h.trigger due
  | cancel => exact Option.some.inj hstep ▸ h.cancel
  | check n =>
    rw [step?, Option.ite_none_right_eq_some, Option.any_eq_true] at hstep
    obtain ⟨⟨t, htimer, hstate⟩, hd'⟩ := hstep
    exact Option.some.inj hd' ▸ h.check htimer (by simpa using hstate)
  | start g => exact h.start hstep
  | finish =>
    rw [step?, Option.ite_none_right_eq_some] at hstep
    exact Option.some.inj hstep.2 ▸ h.finish hstep.1

end Sound

/-- A run from a state that an earlier run has led to. -/
theorem Sound.run (h : Sound steps d) {more : List DebouncerStep} (hrun : d.run? more = some d') :
    Sound (steps ++ more) d' := by
  induction more generalizing steps d with
  | nil =>
    obtain rfl := Option.some.inj hrun
    rwa [List.append_nil]
  | cons s more ih =>
    rw [run?_cons, Option.bind_eq_some_iff] at hrun
    obtain ⟨d₁, hstep, hmore⟩ := hrun
    have hlater := ih (h.step hstep) hmore
    rwa [List.append_assoc] at hlater

/-- What holds at every time. -/
theorem sound_run (h : run? {} steps = some d) : Sound steps d := Sound.init.run h

/-! ## The last change -/

/-- After every run:
* as many actions have started as have ended, and one more if one is running;
* no trigger has led to two actions, and nothing but a trigger to one;
* if the latest call is a trigger, either its call is pending and its timer still to fire, or no call
  is pending and its call has passed its check, and its action is waiting, running or done. -/
theorem last_change_is_kept (h : run? {} steps = some d) :
    (startsOf steps).length = finishesOf steps + d.running.toList.length ∧
    (startsOf steps).Nodup ∧
    (∀ g ∈ startsOf steps, 0 < g ∧ ∃ due, (callsOf steps)[g - 1]? = some (.trigger due)) ∧
    ∀ due, (callsOf steps).getLast? = some (.trigger due) →
      d.isPending = true ∧ (∃ n, d.pending = some n ∧
        d.timers[n]? = some { due, generation := (callsOf steps).length, state := .armed }) ∨
      d.isPending = false ∧
        (∃ t ∈ d.timers, t.generation = (callsOf steps).length ∧ t.state = .fired) ∧
        ((callsOf steps).length ∈ d.waiting ∨ d.running = some (callsOf steps).length ∨
          (callsOf steps).length ∈ startsOf steps ∧ d.running ≠ some (callsOf steps).length) := by
  have hsound := sound_run h
  refine ⟨hsound.balance, hsound.once.of_append_right, fun g hg => ?_, fun due hlast => ?_⟩
  · obtain ⟨t, ht, rfl, -⟩ := hsound.fired g (List.mem_append_right _ hg)
    obtain ⟨hpos, -, hcall⟩ := hsound.triggered t ht
    exact ⟨hpos, t.due, hcall⟩
  cases hpending : d.pending with
  | some n =>
    obtain ⟨t, htimer, hgeneration, harmed⟩ := hsound.pending hpending
    obtain ⟨-, -, hcall⟩ := hsound.triggered t (List.mem_of_getElem? htimer)
    rw [hsound.generation] at hgeneration
    rw [hgeneration, ← List.getLast?_eq_getElem?, hlast] at hcall
    obtain rfl : due = t.due := DebouncerStep.trigger.inj (Option.some.inj hcall)
    refine .inl ⟨by simp [isPending, hpending], n, rfl, ?_⟩
    rw [htimer, ← hgeneration, ← harmed]
  | none =>
    have hpassed := hsound.latest hlast hpending
    have hfired := hsound.fired _ hpassed
    rw [hsound.generation] at hpassed hfired
    refine .inr ⟨by simp [isPending, hpending], hfired, ?_⟩
    rcases List.mem_append.1 hpassed with hwaits | hstarted
    · exact .inl hwaits
    · by_cases hrunning : d.running = some (callsOf steps).length
      · exact .inr (.inl hrunning)
      · exact .inr (.inr ⟨hstarted, hrunning⟩)

/-- A burst of two triggers, the first of whose timers fires too late, and a third trigger while the
action of the second runs: the third waits. -/
theorem last_change_is_kept_burst :
    let now := Double.zero false
    let steps : List DebouncerStep := [.trigger now, .trigger now, .check 0, .check 1, .start 2,
      .trigger now, .check 2]
    ∃ d, run? {} steps = some d ∧ startsOf steps = [2] ∧ d.isPending = false ∧ d.waiting = [3] ∧
      ∃ t ∈ d.timers, t.generation = 3 ∧ t.state = .fired := by
  intro now steps
  have hrun : run? {} steps = some
      { generation := 3, pending := none, waiting := [3], running := some 2,
        timers := [⟨now, 1, .fired⟩, ⟨now, 2, .fired⟩, ⟨now, 3, .fired⟩] } := rfl
  obtain ⟨-, -, -, hlast⟩ := last_change_is_kept hrun
  refine ⟨_, hrun, rfl, rfl, rfl, ?_⟩
  rcases hlast now rfl with ⟨hpending, -⟩ | ⟨-, hfired, -⟩
  · exact absurd hpending (by simp [isPending])
  · exact hfired

/-! ## What is left of earlier triggers -/

theorem generation_check (d : Debouncer) (n : Nat) : (d.check n).generation = d.generation := by
  unfold check
  split <;> rfl

/-- No step but a trigger and a cancellation counts. -/
theorem generation_le_of_step? {s : DebouncerStep} (h : d.step? s = some d') :
    d.generation ≤ d'.generation := by
  cases s with
  | trigger due => exact Option.some.inj h ▸ Nat.le_succ _
  | cancel => exact Option.some.inj h ▸ Nat.le_succ _
  | check n =>
    rw [step?, Option.ite_none_right_eq_some] at h
    rw [← Option.some.inj h.2, generation_check]
  | start g =>
    rw [step?, start?, Option.ite_none_right_eq_some] at h
    exact Option.some.inj h.2 ▸ Nat.le_refl _
  | finish =>
    rw [step?, Option.ite_none_right_eq_some] at h
    exact Option.some.inj h.2 ▸ Nat.le_refl _

/-- A call that comes to wait has the latest number. -/
theorem mem_waiting_of_step? {s : DebouncerStep} (h : d.step? s = some d') {g : Nat}
    (hg : g ∈ d'.waiting) : g ∈ d.waiting ∨ g = d.generation := by
  cases s with
  | trigger due =>
    obtain rfl := Option.some.inj h
    exact .inl hg
  | cancel =>
    obtain rfl := Option.some.inj h
    exact .inl hg
  | check n =>
    rw [step?, Option.ite_none_right_eq_some] at h
    rw [← Option.some.inj h.2, check] at hg
    split at hg
    · simpa using hg
    · exact .inl hg
  | start m =>
    rw [step?, start?, Option.ite_none_right_eq_some] at h
    rw [← Option.some.inj h.2] at hg
    exact .inl (List.mem_of_mem_erase hg)
  | finish =>
    rw [step?, Option.ite_none_right_eq_some] at h
    obtain rfl := Option.some.inj h.2
    exact .inl hg

theorem mem_waiting_of_run? (h : d.run? steps = some d') {g : Nat} (hg : g ∈ d'.waiting) :
    g ∈ d.waiting ∨ d.generation ≤ g := by
  induction steps generalizing d with
  | nil =>
    obtain rfl := Option.some.inj h
    exact .inl hg
  | cons s steps ih =>
    rw [run?_cons, Option.bind_eq_some_iff] at h
    obtain ⟨d₁, hstep, hmore⟩ := h
    rcases ih hmore with hwaits | hle
    · exact (mem_waiting_of_step? hstep hwaits).imp_right fun heq => heq.ge
    · exact .inr ((generation_le_of_step? hstep).trans hle)

/-- After a trigger or a cancellation, the action of an earlier trigger can still start if and only
if its call had passed its check and was waiting. -/
theorem starts_after_call_iff {s : DebouncerStep} (hs : s.isCall = true)
    (hstep : d.step? s = some d') {g : Nat} (hg : g ≤ d.generation) :
    (∃ more d'', d'.run? (more ++ [.start g]) = some d'') ↔ g ∈ d.waiting := by
  have hcall : d'.generation = d.generation + 1 ∧ d'.waiting = d.waiting := by
    cases s with
    | trigger due => exact Option.some.inj hstep ▸ ⟨rfl, rfl⟩
    | cancel => exact Option.some.inj hstep ▸ ⟨rfl, rfl⟩
    | check n => exact absurd hs (by simp [isCall])
    | start m => exact absurd hs (by simp [isCall])
    | finish => exact absurd hs (by simp [isCall])
  constructor
  · rintro ⟨more, d'', hrun⟩
    rw [run?_append, Option.bind_eq_some_iff] at hrun
    obtain ⟨d₁, hmore, hstart⟩ := hrun
    rw [run?_singleton, step?, start?, Option.ite_none_right_eq_some, Bool.and_eq_true,
      List.contains_iff_mem] at hstart
    rcases mem_waiting_of_run? hmore hstart.1.2 with hwaits | hle
    · exact hcall.2 ▸ hwaits
    · omega
  · intro hwaits
    -- The action may have to wait until another one has ended.
    have hstart : ∀ d₁ : Debouncer, d₁.running = none → g ∈ d₁.waiting →
        ∃ d'', d₁.run? [.start g] = some d'' := by
      intro d₁ hnone hmem
      exact ⟨_, by rw [run?_singleton, step?, start?, if_pos (by simp [hnone, hmem])]⟩
    cases hrunning : d'.running with
    | none =>
      obtain ⟨d'', hrun⟩ := hstart d' hrunning (hcall.2 ▸ hwaits)
      exact ⟨[], d'', hrun⟩
    | some m =>
      obtain ⟨d'', hrun⟩ := hstart d'.finish rfl (hcall.2 ▸ hwaits)
      refine ⟨[.finish], d'', ?_⟩
      rw [run?_append, run?_singleton, step?, if_pos (by simp [hrunning])]
      exact hrun

/-- A trigger or a cancellation has the last word if and only if no call waits. -/
theorem last_call_wins_iff (h : run? {} steps = some d) {s : DebouncerStep} (hs : s.isCall = true)
    (hstep : d.step? s = some d') :
    (∀ more g d'', d'.run? (more ++ [.start g]) = some d'' → d.generation < g) ↔
      d.waiting = [] := by
  constructor
  · intro hlater
    refine List.eq_nil_iff_forall_not_mem.2 fun g hwaits => ?_
    obtain ⟨t, ht, rfl, -⟩ := (sound_run h).fired g (List.mem_append_left _ hwaits)
    have hle := ((sound_run h).triggered t ht).2.1
    obtain ⟨more, d'', hrun⟩ := (starts_after_call_iff hs hstep hle).2 hwaits
    exact absurd (hlater more _ d'' hrun) (by omega)
  · intro hnone more g d'' hrun
    by_contra hle
    have hwaits := (starts_after_call_iff hs hstep (Nat.le_of_not_lt hle)).1 ⟨more, d'', hrun⟩
    exact absurd hwaits (by simp [hnone])

/-- A trigger between the check of a call and the start of its action comes too late to stop it. -/
example : (run? {} [.trigger (.zero false), .check 0, .trigger (.zero false),
    .start 1]).isSome = true := rfl

end Debouncer

end LatexPreview
