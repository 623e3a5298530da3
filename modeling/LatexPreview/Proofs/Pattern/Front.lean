import Mathlib
import LatexPreview.Proofs.Pattern.Parts
import LatexPreview.Proofs.Source.Grammar

/-!
# Patterns and a known front

Often a few characters at the front of a text are enough to tell that a pattern does not match
there, whatever follows them.  This can be computed, so that there is no need to know how the matches
of a pattern begin.

* `Pattern.leftOf` computes what matches leave of a known front
* `Matches.exists_leftOf`: nothing else may be left of it
* `Pattern.Refuses`: no match starts at the front
* `Opens.skips_commands`: a text in which all commands are refused is gone over
-/

namespace LatexPreview

namespace Pattern

open Text

/-- What matches may leave of a known front of a text, as long as none of them reads on behind it. -/
def leftOf : Pattern → Text → Option (List Text)
  | done, w | edge _, w | notAhead _, w => some [w]
  | one _, [] => none
  | one ok, c :: w => some (if ok c then [w] else [])
  | seq p q, w => (p.leftOf w).bind fun ws => (ws.mapM q.leftOf).map List.flatten
  | alt p q, w => (p.leftOf w).bind fun ws => (q.leftOf w).map (ws ++ ·)
  | capture _ p, w => p.leftOf w
  | many _, _ | fewest _, _ | again _, _ => none

/-- No match starts at the front of a text. -/
def Refuses (p : Pattern) (w : Text) : Prop := p.leftOf w = some []

instance (p : Pattern) (w : Text) : Decidable (p.Refuses w) :=
  inferInstanceAs (Decidable (_ = _))

theorem exists_of_mem_of_mapM {α β : Type} {f : α → Option β} {l : List α} {m : List β}
    (h : l.mapM f = some m) {a : α} (ha : a ∈ l) : ∃ b ∈ m, f a = some b := by
  induction l generalizing m with
  | nil => exact absurd ha List.not_mem_nil
  | cons a l ih =>
    rw [List.mapM_cons] at h
    obtain ⟨b, hb, hlater⟩ := Option.bind_eq_some_iff.1 h
    obtain ⟨bs, hbs, hm⟩ := Option.bind_eq_some_iff.1 hlater
    obtain rfl : b :: bs = m := Option.some.inj hm
    rcases List.mem_cons.1 ha with rfl | ha
    · exact ⟨b, List.mem_cons_self, hb⟩
    · obtain ⟨c, hc, hf⟩ := ih hbs ha
      exact ⟨c, List.mem_cons_of_mem _ hc, hf⟩

theorem Matches.exists_leftOf {p : Pattern} {s t : Cursor} (h : p.Matches s t) {w r : Text}
    {ws : List Text} (hs : s.rest = w ++ r) (hw : p.leftOf w = some ws) :
    ∃ v ∈ ws, t.rest = v ++ r := by
  have hstays : ∀ {s t : Cursor} {w : Text} {ws : List Text}, s.rest = w ++ r → t = s →
      some [w] = some ws → ∃ v ∈ ws, t.rest = v ++ r := by
    rintro s t w ws hs rfl hws
    exact ⟨w, by simp [← Option.some.inj hws], hs⟩
  induction p generalizing s t w ws with
  | done => exact hstays hs h hw
  | edge ok => exact hstays hs h.2 hw
  | notAhead p _ => exact hstays hs h.2 hw
  | one ok =>
    obtain ⟨c, x, hx, hok, rfl⟩ := h
    cases w with
    | nil => exact absurd hw (by simp [leftOf])
    | cons d w =>
      obtain ⟨rfl, rfl⟩ := List.cons.inj (hx.symm.trans hs)
      exact ⟨w, by simp [← Option.some.inj hw, hok], rfl⟩
  | seq p q ihp ihq =>
    obtain ⟨m, hp, hq⟩ := h
    obtain ⟨vs, hvs, hws⟩ := Option.bind_eq_some_iff.1 hw
    obtain ⟨us, hus, rfl⟩ := Option.map_eq_some_iff.1 hws
    obtain ⟨v, hv, hm⟩ := ihp hp hs hvs
    obtain ⟨u, hu, hleft⟩ := exists_of_mem_of_mapM hus hv
    obtain ⟨x, hx, ht⟩ := ihq hq hm hleft
    exact ⟨x, List.mem_flatten.2 ⟨u, hu, hx⟩, ht⟩
  | alt p q ihp ihq =>
    obtain ⟨us, hus, hws⟩ := Option.bind_eq_some_iff.1 hw
    obtain ⟨vs, hvs, rfl⟩ := Option.map_eq_some_iff.1 hws
    rcases h with h | h
    · obtain ⟨v, hv, ht⟩ := ihp h hs hus
      exact ⟨v, List.mem_append_left _ hv, ht⟩
    · obtain ⟨v, hv, ht⟩ := ihq h hs hvs
      exact ⟨v, List.mem_append_right _ hv, ht⟩
  | capture label p ih =>
    obtain ⟨m, hm, rfl⟩ := h
    exact ih hm hs hw
  | many p _ => exact absurd hw (by simp [leftOf])
  | fewest p _ => exact absurd hw (by simp [leftOf])
  | again label => exact absurd hw (by simp [leftOf])

section Refuses

variable {p : Pattern} {w s x : Text} {b : Option Char}

theorem Refuses.not_matches (h : p.Refuses w) {c t : Cursor} (hc : c.rest = w ++ s) :
    ¬ p.Matches c t := by
  intro hm
  obtain ⟨v, hv, -⟩ := hm.exists_leftOf hc h
  exact absurd hv List.not_mem_nil

theorem Refuses.run_eq_none (h : p.Refuses w) {c : Cursor} (hc : c.rest = w ++ s) (k : Accept) :
    p.run c k = none := by
  refine Option.eq_none_iff_forall_ne_some.2 fun u hu => ?_
  obtain ⟨t, ht, -⟩ := run_sound hu
  exact h.not_matches hc ht

/-- A text in which all commands are refused is gone over. -/
theorem Opens.skips_commands (hp : p.Opens '\\') {names : List Text}
    (hnames : ∀ n ∈ names, p.Refuses ('\\' :: n)) (h : Commands names x s)
    (hlast : x.getLast? ≠ some '\\') : p.Skips b x s := by
  induction x generalizing b with
  | nil => trivial
  | cons c x ih =>
    have hlater : x.getLast? ≠ some '\\' := by
      intro heq
      rw [List.getLast?_cons, heq] at hlast
      exact hlast rfl
    refine ⟨?_, ih h.2 hlater⟩
    by_cases hc : c = '\\'
    · rcases h.1 hc with hnil | ⟨n, hn, r, hr⟩
      · rw [(List.append_eq_nil_iff.1 hnil).1, hc] at hlast
        exact absurd rfl hlast
      · exact (hnames n hn).run_eq_none (s := r) (by rw [← hr, hc]; rfl) some
    · exact (hp.skips (x := [c]) (by simpa using Ne.symm hc) (x ++ s)).1

end Refuses

end Pattern

end LatexPreview
