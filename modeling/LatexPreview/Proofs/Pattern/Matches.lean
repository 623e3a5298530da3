import Mathlib
import LatexPreview.Pattern.Cut

/-!
# What patterns match

`Pattern.run` looks for the preferred match of a pattern.  Most facts about the
conversion do not depend on the preference, only on what a match looks like, so this
file gives the matches of a pattern as a relation between places.

* `Pattern.Matches` relates the place in front of a match to the place behind it
* `run_sound`, `run_complete`: running a pattern finds a match if and only if there is one
* `first?_eq_some`, `first?_eq_none`: the first match of a text is its leftmost one
* `cutAtMost_cutsInto`: a cut text is a row of gaps and matches, with nothing lost
* `replaceM_keeps`, `replace_keeps`: what every single replacement keeps, all of them keep
* `foldlM_keeps`: the same for a row of steps
-/

namespace LatexPreview

namespace Pattern

/-! ## The relation -/

/-- Does the pattern lead from one place to the other, whatever it prefers? -/
def Matches : Pattern → Cursor → Cursor → Prop
  | done, s, t => t = s
  | one ok, s, t => ∃ c r, s.rest = c :: r ∧ ok c = true ∧ t = s.next c r
  | seq p q, s, t => ∃ m, p.Matches s m ∧ q.Matches m t
  | alt p q, s, t => p.Matches s t ∨ q.Matches s t
  | many p, s, t => Relation.ReflTransGen (fun a b => p.Matches a b) s t
  | fewest p, s, t => Relation.ReflTransGen (fun a b => p.Matches a b) s t
  | capture label p, s, t =>
    ∃ m, p.Matches s m ∧ t = { m with slots := (label, s.rest, m.rest) :: m.slots }
  | again label, s, t =>
    ∃ word r, s.get? label = some word ∧ s.rest = word ++ r ∧
      t = { s with before := word.getLast?.or s.before, rest := r }
  | notAhead p, s, t => p.run s some = none ∧ t = s
  | edge ok, s, t => ok s.before s.rest.head? = true ∧ t = s

/-- A match consumes a part of the text. -/
theorem Matches.exists_append {p : Pattern} {s t : Cursor} (h : p.Matches s t) :
    ∃ w, s.rest = w ++ t.rest := by
  induction p generalizing s t with
  | done => exact ⟨[], by rw [show t = s from h]; rfl⟩
  | one ok =>
    obtain ⟨c, r, hs, -, rfl⟩ := h
    exact ⟨[c], hs⟩
  | seq p q ihp ihq =>
    obtain ⟨m, hp, hq⟩ := h
    obtain ⟨u, hu⟩ := ihp hp
    obtain ⟨v, hv⟩ := ihq hq
    exact ⟨u ++ v, by rw [hu, hv, List.append_assoc]⟩
  | alt p q ihp ihq =>
    rcases h with h | h
    · exact ihp h
    · exact ihq h
  | many p ih | fewest p ih =>
    refine Relation.ReflTransGen.head_induction_on h ⟨[], rfl⟩ ?_
    rintro a b hab - ⟨v, hv⟩
    obtain ⟨u, hu⟩ := ih hab
    exact ⟨u ++ v, by rw [hu, hv, List.append_assoc]⟩
  | capture label p ih =>
    obtain ⟨m, hm, rfl⟩ := h
    obtain ⟨w, hw⟩ := ih hm
    exact ⟨w, hw⟩
  | again label =>
    obtain ⟨word, r, -, hs, rfl⟩ := h
    exact ⟨word, hs⟩
  | notAhead p _ | edge ok => exact ⟨[], by rw [h.2]; rfl⟩

/-! ## Running a pattern -/

section Repetition

variable {step : Cursor → Accept → Option Cursor} {R : Cursor → Cursor → Prop}

theorem greedily_sound
    (hstep : ∀ s k u, step s k = some u → ∃ t, R s t ∧ k t = some u) :
    ∀ {n s k u}, greedily step n s k = some u →
      ∃ t, Relation.ReflTransGen R s t ∧ k t = some u := by
  intro n
  induction n with
  | zero => intro s k u h; exact ⟨s, .refl, h⟩
  | succ n ih =>
    intro s k u h
    rw [greedily] at h
    split at h
    · rename_i v hv
      obtain ⟨m, hsm, hm⟩ := hstep _ _ _ hv
      obtain ⟨t, hmt, ht⟩ := ih hm
      exact ⟨t, .head hsm hmt, by rw [ht, ← h]⟩
    · exact ⟨s, .refl, h⟩

theorem reluctantly_sound
    (hstep : ∀ s k u, step s k = some u → ∃ t, R s t ∧ k t = some u) :
    ∀ {n s k u}, reluctantly step n s k = some u →
      ∃ t, Relation.ReflTransGen R s t ∧ k t = some u := by
  intro n
  induction n with
  | zero => intro s k u h; exact ⟨s, .refl, h⟩
  | succ n ih =>
    intro s k u h
    rw [reluctantly] at h
    split at h
    · rename_i v hv
      exact ⟨s, .refl, by rw [hv, ← h]⟩
    · obtain ⟨m, hsm, hm⟩ := hstep _ _ _ h
      obtain ⟨t, hmt, ht⟩ := ih hm
      exact ⟨t, .head hsm hmt, ht⟩

/-- As each round consumes text, the number of characters left bounds the rounds. -/
theorem greedily_complete
    (hstep : ∀ s m k, R s m → (k m).isSome = true → (step s k).isSome = true)
    (hless : ∀ s m, R s m → m.rest.length < s.rest.length) {k : Accept} {t : Cursor}
    (ht : (k t).isSome = true) {s : Cursor} (h : Relation.ReflTransGen R s t) :
    ∀ n, s.rest.length ≤ n → (greedily step n s k).isSome = true := by
  refine Relation.ReflTransGen.head_induction_on h ?_ ?_
  · intro n _
    cases n with
    | zero => exact ht
    | succ n =>
      rw [greedily]
      split
      · rfl
      · exact ht
  · intro a m ham _ ih n hn
    have hl := hless _ _ ham
    cases n with
    | zero => omega
    | succ n =>
      have hsome : (step a fun t => greedily step n t k).isSome = true :=
        hstep _ _ _ ham (ih _ (by omega))
      obtain ⟨v, hv⟩ := Option.isSome_iff_exists.1 hsome
      rw [greedily, hv]
      rfl

theorem reluctantly_complete
    (hstep : ∀ s m k, R s m → (k m).isSome = true → (step s k).isSome = true)
    (hless : ∀ s m, R s m → m.rest.length < s.rest.length) {k : Accept} {t : Cursor}
    (ht : (k t).isSome = true) {s : Cursor} (h : Relation.ReflTransGen R s t) :
    ∀ n, s.rest.length ≤ n → (reluctantly step n s k).isSome = true := by
  refine Relation.ReflTransGen.head_induction_on h ?_ ?_
  · intro n _
    obtain ⟨v, hv⟩ := Option.isSome_iff_exists.1 ht
    cases n with
    | zero => exact ht
    | succ n => rw [reluctantly, hv]; rfl
  · intro a m ham _ ih n hn
    have hl := hless _ _ ham
    cases n with
    | zero => omega
    | succ n =>
      rw [reluctantly]
      split
      · rfl
      · exact hstep _ _ _ ham (ih _ (by omega))

end Repetition

/-- What running a pattern finds is a match that the continuation accepts. -/
theorem run_sound {p : Pattern} {s u : Cursor} {k : Accept} (h : p.run s k = some u) :
    ∃ t, p.Matches s t ∧ k t = some u := by
  induction p generalizing s u k with
  | done => exact ⟨s, rfl, h⟩
  | one ok =>
    rw [run] at h
    split at h
    · exact absurd h (by simp)
    · rename_i c r hs
      split at h
      · exact ⟨s.next c r, ⟨c, r, hs, ‹_›, rfl⟩, h⟩
      · exact absurd h (by simp)
  | seq p q ihp ihq =>
    obtain ⟨m, hm, hk⟩ := ihp h
    obtain ⟨t, ht, hu⟩ := ihq hk
    exact ⟨t, ⟨m, hm, ht⟩, hu⟩
  | alt p q ihp ihq =>
    rw [run] at h
    split at h
    · rename_i v hv
      obtain ⟨t, ht, hu⟩ := ihp hv
      exact ⟨t, .inl ht, by rw [hu, ← h]⟩
    · obtain ⟨t, ht, hu⟩ := ihq h
      exact ⟨t, .inr ht, hu⟩
  | many p ih => exact greedily_sound (R := p.Matches) (fun _ _ _ => ih) h
  | fewest p ih => exact reluctantly_sound (R := p.Matches) (fun _ _ _ => ih) h
  | capture label p ih =>
    obtain ⟨m, hm, hu⟩ := ih h
    exact ⟨_, ⟨m, hm, rfl⟩, hu⟩
  | again label =>
    rw [run] at h
    obtain ⟨word, hword, h⟩ := Option.bind_eq_some_iff.1 h
    obtain ⟨r, hr, h⟩ := Option.bind_eq_some_iff.1 h
    exact ⟨_, ⟨word, r, hword, Text.eq_append_of_dropFront? hr, rfl⟩, h⟩
  | notAhead p _ =>
    rw [run] at h
    split at h
    · exact absurd h (by simp)
    · exact ⟨s, ⟨‹_›, rfl⟩, h⟩
  | edge ok =>
    rw [run] at h
    split at h
    · exact ⟨s, ⟨‹_›, rfl⟩, h⟩
    · exact absurd h (by simp)

/-- Every match consumes text. -/
def Consumes (p : Pattern) : Prop :=
  ∀ s t, p.Matches s t → t.rest.length < s.rest.length

/-- Every repeated part consumes text. -/
def Steady : Pattern → Prop
  | seq p q | alt p q => p.Steady ∧ q.Steady
  | many p | fewest p => p.Steady ∧ p.Consumes
  | capture _ p => p.Steady
  | done | one _ | again _ | notAhead _ | edge _ => True

/-- If there is a match that the continuation accepts, then running the pattern finds one. -/
theorem run_complete {p : Pattern} (hp : p.Steady) {s t : Cursor} {k : Accept}
    (h : p.Matches s t) (hk : (k t).isSome = true) : (p.run s k).isSome = true := by
  induction p generalizing s t k with
  | done => rw [show t = s from h] at hk; exact hk
  | one ok =>
    obtain ⟨c, r, hs, hc, rfl⟩ := h
    rw [run, hs]
    simpa only [hc, if_true] using hk
  | seq p q ihp ihq =>
    obtain ⟨m, hm, ht⟩ := h
    exact ihp hp.1 hm (ihq hp.2 ht hk)
  | alt p q ihp ihq =>
    rw [run]
    split
    · rfl
    · rename_i hnone
      rcases h with h | h
      · have hsome := ihp hp.1 h hk
        rw [hnone] at hsome
        exact absurd hsome (by simp)
      · exact ihq hp.2 h hk
  | many p ih => exact greedily_complete (R := p.Matches) (fun _ _ _ => ih hp.1) hp.2 hk h _ le_rfl
  | fewest p ih => exact reluctantly_complete (R := p.Matches) (fun _ _ _ => ih hp.1) hp.2 hk h _ le_rfl
  | capture label p ih =>
    obtain ⟨m, hm, rfl⟩ := h
    exact ih hp hm hk
  | again label =>
    obtain ⟨word, r, hword, hs, rfl⟩ := h
    rw [run, hword, hs, Option.bind_eq_bind, Option.bind_some, Text.dropFront?_append]
    exact hk
  | notAhead p _ =>
    obtain ⟨hnone, rfl⟩ := h
    simpa only [run, hnone] using hk
  | edge ok =>
    obtain ⟨hok, rfl⟩ := h
    simpa only [run, hok, if_true] using hk

theorem matches_of_at? {p : Pattern} {b : Option Char} {s : Text} {stop : Cursor}
    (h : p.at? b s = some stop) : p.Matches ⟨b, s, []⟩ stop := by
  obtain ⟨t, ht, hstop⟩ := run_sound h
  rwa [← Option.some.inj hstop]

theorem at?_isSome {p : Pattern} (hp : p.Steady) {b : Option Char} {s : Text} {stop : Cursor}
    (h : p.Matches ⟨b, s, []⟩ stop) : (p.at? b s).isSome = true :=
  run_complete hp h rfl

/-! ## The first match -/

/-- The first match is the leftmost one, and the text around it is kept. -/
theorem first?_eq_some {p : Pattern} {b : Option Char} {s : Text} {h : Hit}
    (hf : p.first? b s = some h) :
    s = h.gap ++ h.matched ++ h.stop.rest ∧
      p.at? (h.gap.getLast?.or b) (h.matched ++ h.stop.rest) = some h.stop ∧
      ∀ x y, s = x ++ y → x.length < h.gap.length → p.at? (x.getLast?.or b) y = none := by
  induction s generalizing b h with
  | nil =>
    obtain ⟨stop, hstop, rfl⟩ := Option.map_eq_some_iff.1 hf
    obtain ⟨w, hw⟩ := (matches_of_at? hstop).exists_append
    obtain ⟨rfl, hrest⟩ := List.append_eq_nil_iff.1 hw.symm
    exact ⟨by simp [hrest], by simpa [hrest] using hstop, fun x y _ hx => by simp at hx⟩
  | cons c s ih =>
    rw [first?] at hf
    split at hf
    · rename_i stop hstop
      obtain rfl := Option.some.inj hf
      obtain ⟨w, hw⟩ := (matches_of_at? hstop).exists_append
      simp only at hw
      have hmatched : Text.between (c :: s) stop.rest = w := by rw [hw, Text.between_append]
      rw [hmatched]
      exact ⟨hw, by simpa [← hw] using hstop, fun x y _ hx => by simp at hx⟩
    · rename_i hnone
      obtain ⟨h, hh, rfl⟩ := Option.map_eq_some_iff.1 hf
      obtain ⟨hs, hat, hleft⟩ := ih hh
      have hlast : ∀ x : Text, (c :: x).getLast?.or b = x.getLast?.or (some c) := by
        intro x
        cases x with
        | nil => rfl
        | cons d x => simp [List.getLast?_cons]
      refine ⟨by simp [hs], by rw [hlast]; exact hat, ?_⟩
      intro x y hxy hx
      cases x with
      | nil => rwa [show y = c :: s from hxy.symm]
      | cons d x =>
        obtain ⟨rfl, hs'⟩ : c = d ∧ s = x ++ y := by simpa using hxy
        rw [hlast]
        exact hleft x y hs' (by simpa using hx)

/-- Without a first match, there is no match at any place. -/
theorem first?_eq_none {p : Pattern} {b : Option Char} {s : Text} (hf : p.first? b s = none)
    {x y : Text} (hs : s = x ++ y) : p.at? (x.getLast?.or b) y = none := by
  induction s generalizing b x with
  | nil =>
    obtain ⟨rfl, rfl⟩ := List.append_eq_nil_iff.1 hs.symm
    simpa [first?] using hf
  | cons c s ih =>
    rw [first?] at hf
    split at hf
    · exact absurd hf (by simp)
    · rename_i hnone
      cases x with
      | nil => rwa [show y = c :: s from hs.symm]
      | cons d x =>
        obtain ⟨rfl, hs'⟩ : c = d ∧ s = x ++ y := by simpa using hs
        have := ih (Option.map_eq_none_iff.1 hf) hs'
        cases x with
        | nil => exact this
        | cons d x => simpa [List.getLast?_cons] using this

/-! ## Cuts -/

/-- A hit whose match is one of the pattern. -/
def Found (p : Pattern) (h : Hit) : Prop :=
  ∃ b, p.Matches ⟨b, h.matched ++ h.stop.rest, []⟩ h.stop

/-- A text is a row of gaps and matches with a tail. -/
inductive CutsInto (p : Pattern) : Text → List Hit → Text → Prop
  | tail (s : Text) : CutsInto p s [] s
  | hit {h : Hit} {hits : List Hit} {tail : Text} (found : p.Found h)
      (later : CutsInto p h.stop.rest hits tail) :
      CutsInto p (h.gap ++ h.matched ++ h.stop.rest) (h :: hits) tail

theorem cutAtMost_cutsInto (p : Pattern) (n : Nat) (b : Option Char) (s : Text) :
    p.CutsInto s (p.cutAtMost n b s).hits (p.cutAtMost n b s).tail := by
  induction n generalizing b s with
  | zero => exact .tail s
  | succ n ih =>
    rw [cutAtMost]
    split
    · exact .tail s
    · rename_i h hf
      obtain ⟨hs, hat, -⟩ := first?_eq_some hf
      have := CutsInto.hit ⟨_, matches_of_at? hat⟩ (ih h.stop.before h.stop.rest)
      rwa [← hs] at this

theorem cut_cutsInto (p : Pattern) (s : Text) : p.CutsInto s (p.cut s).hits (p.cut s).tail :=
  p.cutAtMost_cutsInto s.length none s

theorem cutFirst_cutsInto (p : Pattern) (s : Text) :
    p.CutsInto s (p.cutFirst s).hits (p.cutFirst s).tail :=
  p.cutAtMost_cutsInto 1 none s

theorem find?_eq_some {p : Pattern} {s : Text} {h : Hit} (hf : p.find? s = some h) :
    s = h.gap ++ h.matched ++ h.stop.rest ∧ p.Found h := by
  obtain ⟨hs, hat, -⟩ := first?_eq_some hf
  exact ⟨hs, _, matches_of_at? hat⟩

theorem cutFirst_eq_of_find? {p : Pattern} {s : Text} (h : p.find? s = none) :
    p.cutFirst s = ⟨[], s⟩ := by
  rw [cutFirst, cutAtMost, show p.first? none s = none from h]

/-- The first match is the one that is taken out. -/
theorem eraseFirst_of_find? {p : Pattern} {s : Text} {h : Hit} (hf : p.find? s = some h) :
    p.eraseFirst s = h.gap ++ h.stop.rest := by
  have hcut : p.cutFirst s = ⟨[h], h.stop.rest⟩ := by
    rw [cutFirst, cutAtMost, show p.first? none s = some h from hf]
    rfl
  simp [eraseFirst, hcut, Cut.replace]

/-! ## Replacing -/

section Replace

variable {σ : Type} {p : Pattern}

theorem replaceM_cons (f : Hit → StateM σ Text) (h : Hit) (hits : List Hit) (tail : Text) (d : σ) :
    ((Cut.mk (h :: hits) tail).replaceM f).run d =
      let first := (f h).run d
      let later := ((Cut.mk hits tail).replaceM f).run first.2
      (h.gap ++ first.1 ++ later.1, later.2) := by
  simp only [Cut.replaceM, List.mapM_cons, StateT.run_bind, StateT.run_pure, bind_assoc, pure_bind,
    List.flatten_cons, List.append_assoc]
  rfl

theorem CutsInto.replaceM_counts {f : Hit → StateM σ Text} {P : Nat → σ → Text → Prop}
    {s : Text} {hits : List Hit} {tail : Text} (hc : p.CutsInto s hits tail)
    (hstep : ∀ n d front h, h ∈ hits → p.Found h → P n d (front ++ h.matched ++ h.stop.rest) →
      P (n + 1) ((f h).run d).2 (front ++ ((f h).run d).1 ++ h.stop.rest))
    (n : Nat) (d : σ) (front : Text) (h : P n d (front ++ s)) :
    P (n + hits.length) (((Cut.mk hits tail).replaceM f).run d).2
      (front ++ (((Cut.mk hits tail).replaceM f).run d).1) := by
  induction hc generalizing n d front with
  | tail s => exact h
  | @hit g hits tail hg _ ih =>
    have hfirst := hstep n d (front ++ g.gap) g (by simp) hg (by simpa using h)
    have hlater := ih (fun n d front h hh => hstep n d front h (by simp [hh])) _ _ _ hfirst
    rw [replaceM_cons, List.length_cons, ← Nat.add_assoc, Nat.add_right_comm]
    simpa using hlater

/-- What holds after so many replacements, if each replacement carries it on, holds at the end with
the number of all matches. -/
theorem replaceM_counts {f : Hit → StateM σ Text} {P : Nat → σ → Text → Prop} {s : Text}
    (hstep : ∀ n d front h, h ∈ (p.cut s).hits → p.Found h →
      P n d (front ++ h.matched ++ h.stop.rest) →
      P (n + 1) ((f h).run d).2 (front ++ ((f h).run d).1 ++ h.stop.rest))
    {d : σ} (h : P 0 d s) :
    P (p.count s) ((p.replaceM f s).run d).2 ((p.replaceM f s).run d).1 := by
  have hall := (p.cut_cutsInto s).replaceM_counts hstep 0 d [] h
  rwa [Nat.zero_add] at hall

/-- A property that the replacement of each match keeps, whatever stands in front of it, is
kept when all matches are replaced. -/
theorem replaceM_keeps {f : Hit → StateM σ Text} {P : σ → Text → Prop} {s : Text}
    (hstep : ∀ d front h, h ∈ (p.cut s).hits → p.Found h →
      P d (front ++ h.matched ++ h.stop.rest) →
      P ((f h).run d).2 (front ++ ((f h).run d).1 ++ h.stop.rest))
    {d : σ} (h : P d s) : P ((p.replaceM f s).run d).2 ((p.replaceM f s).run d).1 :=
  replaceM_counts (P := fun _ => P) (fun _ => hstep) h

/-- A property that every step of a row keeps, the whole row keeps. -/
theorem foldlM_keeps {α β : Type} {f : β → α → StateM σ β} {P : σ → β → Prop} {l : List α}
    (hstep : ∀ a ∈ l, ∀ d b, P d b → P ((f b a).run d).2 ((f b a).run d).1) {d : σ} {b : β}
    (h : P d b) :
    P ((l.foldlM f b : StateM σ β).run d).2 ((l.foldlM f b : StateM σ β).run d).1 := by
  induction l generalizing d b with
  | nil => exact h
  | cons a l ih =>
    rw [List.foldlM_cons]
    exact ih (fun a ha => hstep a (by simp [ha])) (hstep a (by simp) d b h)

theorem CutsInto.replace_keeps {f : Hit → Text} {P : Text → Prop}
    {s : Text} {hits : List Hit} {tail : Text} (hc : p.CutsInto s hits tail)
    (hstep : ∀ front h, h ∈ hits → p.Found h → P (front ++ h.matched ++ h.stop.rest) →
      P (front ++ f h ++ h.stop.rest))
    (front : Text) (h : P (front ++ s)) : P (front ++ (Cut.mk hits tail).replace f) := by
  induction hc generalizing front with
  | tail s => simpa [Cut.replace] using h
  | @hit g hits tail hg _ ih =>
    have hfirst := hstep (front ++ g.gap) g (by simp) hg (by simpa using h)
    have hlater := ih (fun front h hh => hstep front h (by simp [hh])) _ hfirst
    simpa [Cut.replace] using hlater

/-- The same for replacements that change no state. -/
theorem replace_keeps {f : Hit → Text} {P : Text → Prop} {s : Text}
    (hstep : ∀ front h, p.Found h → P (front ++ h.matched ++ h.stop.rest) →
      P (front ++ f h ++ h.stop.rest)) (h : P s) : P (p.replace f s) := by
  exact (p.cut_cutsInto s).replace_keeps (fun front h _ => hstep front h) [] h

theorem eraseFirst_keeps {P : Text → Prop} {s : Text}
    (hstep : ∀ front h, p.Found h → P (front ++ h.matched ++ h.stop.rest) →
      P (front ++ h.stop.rest)) (h : P s) : P (p.eraseFirst s) := by
  refine (p.cutFirst_cutsInto s).replace_keeps (f := fun _ => []) ?_ [] h
  intro front h _ hf hP
  simpa using hstep front h hf hP

end Replace

end Pattern

end LatexPreview
