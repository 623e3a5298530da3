import Mathlib
import LatexPreview.Proofs.Source.Grammar
import LatexPreview.Proofs.Source.Spans

/-!
# Environments

Patterns of environments keep the name of the environment and its body, which goes on as rarely as
possible, and only for as long as a step allows.

* `environmentPattern` is an environment with one of some names
* `Walks`: a step goes over every character of a text
* `environmentPattern_hit`: an environment whose body the step goes over is found, name and body
* `environmentPattern_blocked`: nothing is found where the step is stopped within the body
-/

namespace LatexPreview

open Text

namespace Pattern

/-! ## Running a pattern over a text -/

theorem getLast?_cons_or (c : Char) (w : Text) (b : Option Char) :
    (c :: w).getLast?.or b = w.getLast?.or (some c) :=
  getLast?_append_or [c] w b

theorem run_lit (w s : Text) (b : Option Char) (slots : List (String × Text × Text)) (k : Accept) :
    (lit w).run ⟨b, w ++ s, slots⟩ k = k ⟨w.getLast?.or b, s, slots⟩ := by
  induction w generalizing b with
  | nil => rfl
  | cons c w ih =>
    cases w with
    | nil => simp [lit, run, Cursor.next]
    | cons d w =>
      have hfirst : (lit (c :: d :: w)).run ⟨b, c :: d :: w ++ s, slots⟩ k =
          (lit (d :: w)).run ⟨some c, d :: w ++ s, slots⟩ k := by
        simp [lit, run, Cursor.next]
      rw [hfirst, ih, getLast?_cons_or c]

theorem run_lit_eq_none {w : Text} {s : Cursor} (h : ¬ w <+: s.rest) (k : Accept) :
    (lit w).run s k = none := by
  refine Option.eq_none_iff_forall_ne_some.2 fun u hu => ?_
  obtain ⟨t, ht, -⟩ := run_sound hu
  exact h ⟨t.rest, (matches_lit ht).symm⟩

/-- Of several names, the one that stands at a place is found, if no other one does. -/
theorem run_nameAmong_of_mem {names : List Text} {name : Text} (hname : name ∈ names) {s : Cursor}
    (halone : ∀ n ∈ names, n = name ∨ ¬ n <+: s.rest) (k : Accept) :
    (nameAmong names).run s k = (lit name).run s k := by
  have hothers : ∀ n ∈ names, n = name ∨ (lit n).run s k = none := fun n hn =>
    (halone n hn).imp id fun h => run_lit_eq_none h k
  rw [run_nameAmong (List.ne_nil_of_mem hname)]
  clear halone
  induction names with
  | nil => exact absurd hname List.not_mem_nil
  | cons n names ih =>
    have hlater : names.findSome? (fun n => (lit n).run s k) = (lit name).run s k ∨
        names.findSome? (fun n => (lit n).run s k) = none := by
      by_cases hmem : name ∈ names
      · exact .inl (ih hmem fun n hn => hothers n (List.mem_cons_of_mem _ hn))
      · refine .inr (List.findSome?_eq_none_iff.2 fun n hn => ?_)
        exact (hothers n (List.mem_cons_of_mem _ hn)).resolve_left fun heq => hmem (heq ▸ hn)
    rw [List.findSome?_cons]
    rcases hothers n List.mem_cons_self with rfl | hnone
    · cases hn : (lit n).run s k with
      | some t => rfl
      | none => rcases hlater with heq | heq <;> simp [heq, hn]
    · rw [hnone]
      rcases List.mem_cons.1 hname with rfl | hmem
      · rcases hlater with heq | heq <;> simp [heq, hnone]
      · exact ih hmem fun n hn => hothers n (List.mem_cons_of_mem _ hn)

/-! ## Going over a body -/

/-- In front of the second text, the step goes over each character of the first one. -/
def Walks (step : Pattern) (x s : Text) : Prop :=
  ∀ u c v, x = u ++ c :: v → ∀ b slots k,
    step.run ⟨b, c :: (v ++ s), slots⟩ k = k ⟨some c, v ++ s, slots⟩

theorem walks_any (x s : Text) : any.Walks x s := by
  intro u c v hx b slots k
  simp [any, run, Cursor.next]

/-- A step that looks ahead goes over a text in which it does not see anything. -/
theorem walks_notAhead {p : Pattern} {ws : List Text} (hp : p.Leads ws) {x s : Text}
    (h : ∀ w ∈ ws, Avoids w x s) : (notAhead p ++ any).Walks x s := by
  rintro u c v rfl b slots k
  have hnone : p.run ⟨b, c :: (v ++ s), slots⟩ some = none := by
    refine Option.eq_none_iff_forall_ne_some.2 fun t ht => ?_
    obtain ⟨t, hmatch, -⟩ := run_sound ht
    obtain ⟨w, hw, m, hrest⟩ := hp _ _ hmatch
    refine (avoids_append.1 (h w hw)).2.1 ?_
    rw [show c :: (v ++ s) = w ++ m ++ t.rest from hrest, List.append_assoc]
    exact List.prefix_append _ _
  have hrun : (notAhead p ++ any).run ⟨b, c :: (v ++ s), slots⟩ k =
      (notAhead p).run ⟨b, c :: (v ++ s), slots⟩ fun t => any.run t k := rfl
  rw [hrun, run, hnone]
  simp [any, run, Cursor.next]

/-- A reluctant repetition goes over a text in which it is not asked to stop. -/
theorem reluctantly_walks {step : Pattern} {k : Accept} {x s : Text} (hstep : step.Walks x s)
    (slots : List (String × Text × Text))
    (hk : ∀ u c v, x = u ++ c :: v → ∀ b, k ⟨b, c :: (v ++ s), slots⟩ = none) {n : Nat}
    (hn : (x ++ s).length ≤ n) (b : Option Char) : ∃ m,
      reluctantly step.run n ⟨b, x ++ s, slots⟩ k =
        reluctantly step.run m ⟨x.getLast?.or b, s, slots⟩ k := by
  induction x generalizing n b with
  | nil => exact ⟨n, rfl⟩
  | cons c x ih =>
    cases n with
    | zero => exact absurd hn (by simp)
    | succ n =>
      have hless : (x ++ s).length ≤ n := by simpa using hn
      obtain ⟨m, hlater⟩ := ih (fun u d v hx => hstep (c :: u) d v (by simp [hx]))
        (fun u d v hx => hk (c :: u) d v (by simp [hx])) hless (some c)
      have hfirst := hstep [] c x rfl b slots fun t => reluctantly step.run n t k
      refine ⟨m, ?_⟩
      rw [reluctantly, List.cons_append, hk [] c x rfl, hfirst, hlater, getLast?_cons_or]

theorem reluctantly_eq_some {step : Pattern} {k : Accept} {s t : Cursor} (hk : k s = some t) (n : Nat) :
    reluctantly step.run n s k = some t := by
  cases n with
  | zero => exact hk
  | succ n => rw [reluctantly, hk]

theorem reluctantly_eq_none {step : Pattern} {k : Accept} {s : Cursor} (hk : k s = none)
    (hstep : ∀ k, step.run s k = none) (n : Nat) : reluctantly step.run n s k = none := by
  cases n with
  | zero => exact hk
  | succ n => rw [reluctantly, hk, hstep]

/-! ## Environments -/

/-- The tag that closes the environment whose name has been kept. -/
def keptClosing : Pattern :=
  command "end" ++ one (· == '{') ++ again "env" ++ one (· == '}')

/-- An environment with one of some names, whose body goes on as long as the step allows. -/
def environmentPattern (names : List Text) (step : Pattern) : Pattern :=
  command "begin" ++ one (· == '{') ++ capture "env" (nameAmong names) ++ one (· == '}')
    ++ capture "body" (fewest step)
    ++ command "end" ++ one (· == '{') ++ again "env" ++ one (· == '}')

theorem run_keptClosing {s : Cursor} {name : Text} (h : s.get? "env" = some name) :
    (keptClosing.run s some).map (·.rest) = dropFront? (endTag name) s.rest :=
  run_end_rest h

theorem bare_keptClosing : keptClosing.Bare := ⟨⟨⟨bare_lit _, trivial⟩, trivial⟩, trivial⟩

/-- The place behind the name of an environment and in front of its body. -/
def inEnvironment (name s : Text) : Cursor :=
  ⟨some '}', s, [("env", name ++ '}' :: s, '}' :: s)]⟩

section Environment

variable {names : List Text} {step : Pattern} {name x s : Text}

theorem at?_environmentPattern (hname : name ∈ names)
    (halone : ∀ n ∈ names, n = name ∨ Clash n (name ++ ['}'])) (b : Option Char) (s : Text) :
    (environmentPattern names step).at? b (beginTag name ++ s) =
      reluctantly step.run s.length (inEnvironment name s) fun t =>
        keptClosing.run { t with slots := ("body", s, t.rest) :: t.slots } some := by
  have hothers : ∀ n ∈ names, n = name ∨ ¬ n <+: name ++ '}' :: s := by
    refine fun n hn => (halone n hn).imp id fun hclash hp => (hclash.append [] s).1 ?_
    simpa using hp
  have hopen : beginTag name ++ s = ('\\' :: "begin".toList) ++ '{' :: (name ++ '}' :: s) := by
    simp [beginTag, braced]
  let k : Accept := fun t => (one (· == '}')).run t fun t => (capture "body" (fewest step)).run t
    fun t => keptClosing.run t some
  have hrun : (environmentPattern names step).at? b (beginTag name ++ s) =
      (command "begin").run ⟨b, ('\\' :: "begin".toList) ++ '{' :: (name ++ '}' :: s), []⟩ fun t =>
        (one (· == '{')).run t fun t => (nameAmong names).run t fun u =>
          k { u with slots := ("env", t.rest, u.rest) :: u.slots } := by
    rw [hopen]
    rfl
  rw [hrun, command, run_lit]
  simp only [run, beq_self_eq_true, if_true, Cursor.next]
  rw [run_nameAmong_of_mem hname hothers, run_lit]
  simp only [k, run, beq_self_eq_true, if_true, Cursor.next]
  rfl

theorem run_keptClosing_eq_none {t : Cursor} (h : t.get? "env" = some name)
    (hp : ¬ endTag name <+: t.rest) : keptClosing.run t some = none := by
  have hrest := run_keptClosing h
  rw [dropFront?_eq_none_iff.2 hp] at hrest
  exact Option.map_eq_none_iff.1 hrest

theorem get?_env_of_slots {t : Cursor} {w r rest : Text} (label : Text)
    (h : t.slots = [("body", label, rest), ("env", w ++ r, r)]) : t.get? "env" = some w := by
  simp [Cursor.get?, h, List.lookup, between_append]

/-- An environment is found, if nothing in its body reads like its closing tag and the step goes over
all of it. -/
theorem environmentPattern_hit (hname : name ∈ names)
    (halone : ∀ n ∈ names, n = name ∨ Clash n (name ++ ['}']))
    (havoids : Avoids (endTag name) x (endTag name ++ s)) (hstep : step.Walks x (endTag name ++ s))
    (b : Option Char) : ∃ stop,
      (environmentPattern names step).at? b (beginTag name ++ (x ++ (endTag name ++ s))) = some stop ∧
        stop.rest = s ∧ stop.get? "env" = some name ∧ stop.get? "body" = some x := by
  rw [at?_environmentPattern hname halone]
  obtain ⟨m, hwalk⟩ := reluctantly_walks (k := fun t => keptClosing.run
      { t with slots := ("body", x ++ (endTag name ++ s), t.rest) :: t.slots } some) hstep
    (inEnvironment name (x ++ (endTag name ++ s))).slots
    (by
      rintro u c v rfl b
      refine run_keptClosing_eq_none (get?_env_of_slots _ rfl) ?_
      exact (avoids_append.1 havoids).2.1) le_rfl (some '}')
  obtain ⟨t, ht, hrest⟩ : ∃ t, keptClosing.run ⟨x.getLast?.or (some '}'), endTag name ++ s,
      ("body", x ++ (endTag name ++ s), endTag name ++ s) ::
        (inEnvironment name (x ++ (endTag name ++ s))).slots⟩ some = some t ∧ t.rest = s := by
    refine Option.map_eq_some_iff.1 ((run_keptClosing (get?_env_of_slots _ rfl)).trans ?_)
    exact dropFront?_append _ _
  obtain ⟨t', hmatch, heq⟩ := run_sound ht
  obtain rfl : t' = t := Option.some.inj heq
  have hslots := hmatch.slots_eq bare_keptClosing
  refine ⟨t', ?_, hrest, get?_env_of_slots _ hslots, get?_of_slots hslots⟩
  exact hwalk.trans (reluctantly_eq_some ht m)

/-- Where the step is stopped within the body, no environment is found. -/
theorem environmentPattern_blocked (hname : name ∈ names)
    (halone : ∀ n ∈ names, n = name ∨ Clash n (name ++ ['}']))
    (havoids : Avoids (endTag name) x s) (hstep : step.Walks x s) (hend : ¬ endTag name <+: s)
    (hstop : ∀ b slots k, step.run ⟨b, s, slots⟩ k = none) (b : Option Char) :
    (environmentPattern names step).at? b (beginTag name ++ (x ++ s)) = none := by
  rw [at?_environmentPattern hname halone]
  obtain ⟨m, hwalk⟩ := reluctantly_walks (k := fun t => keptClosing.run
      { t with slots := ("body", x ++ s, t.rest) :: t.slots } some) hstep
    (inEnvironment name (x ++ s)).slots
    (by
      rintro u c v rfl b
      refine run_keptClosing_eq_none (get?_env_of_slots _ rfl) ?_
      exact (avoids_append.1 havoids).2.1) le_rfl (some '}')
  refine hwalk.trans (reluctantly_eq_none ?_ (fun k => hstop _ _ _) m)
  exact run_keptClosing_eq_none (get?_env_of_slots _ rfl) hend

end Environment

end Pattern

end LatexPreview
