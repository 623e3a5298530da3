import Mathlib
import LatexPreview.Proofs.Pattern.Scan
import LatexPreview.Proofs.Text.Sliced

/-!
# Texts that are searched apart

What a search finds in two texts, one behind the other, need not be what it finds in each of them:
a match may reach over from the first one into the second.  Where this cannot happen, the cuts of
both texts make up the cut of the whole.  And the second text is cut as if it stood alone, as far as
the pattern does not look at the character in front of it.

* `Sliced.append`: a cut behind a cut
* `slicedFrom`: the cut of a text behind a character, as slices
* `Apart`: a text that is cut in the same way, whatever stands behind it
* `EdgesAgree`: the pattern does not tell two characters in front of a text from each other
* `cutFrom_induction`: a cut goes over a character or over a match
* `slicedFrom_congr`: behind two such characters a text is cut in the same way
-/

namespace LatexPreview

/-! ## Cuts behind cuts -/

namespace Sliced

variable {β : Type}

/-- The cut with another one behind it. -/
def append : Sliced β → Sliced β → Sliced β
  | tail rest, τ => τ.prepend rest
  | slice gap part later, τ => slice gap part (later.append τ)

/-- The parts in front of the slices, and the one behind the last of them. -/
def gaps : Sliced β → List (List β)
  | tail rest => [rest]
  | slice gap _ later => gap :: later.gaps

section Lemmas

variable (front : List β) (σ τ ρ : Sliced β)

@[simp] theorem prepend_nil : σ.prepend [] = σ := by cases σ <;> rfl

theorem prepend_append (x y : List β) : σ.prepend (x ++ y) = (σ.prepend y).prepend x := by
  cases σ <;> simp [prepend]

@[simp] theorem slices_prepend : (σ.prepend front).slices = σ.slices := by cases σ <;> rfl

@[simp] theorem outside_prepend : (σ.prepend front).outside = front ++ σ.outside := by
  cases σ <;> simp [prepend, outside]

@[simp] theorem refill_prepend (parts : List (List β)) :
    (σ.prepend front).refill parts = front ++ σ.refill parts := by
  cases σ with
  | tail rest => rfl
  | slice gap part later => cases parts <;> simp [prepend, refill]

variable {σ front} in
theorem gaps_prepend {first : List β} {more : List (List β)} (h : σ.gaps = first :: more) :
    (σ.prepend front).gaps = (front ++ first) :: more := by
  cases σ <;> obtain ⟨rfl, rfl⟩ := List.cons.inj h <;> rfl

theorem append_prepend : (σ.prepend front).append τ = (σ.append τ).prepend front := by
  cases σ with
  | tail rest => exact prepend_append τ front rest
  | slice gap part later => rfl

theorem append_assoc : (σ.append τ).append ρ = σ.append (τ.append ρ) := by
  induction σ with
  | tail rest => exact append_prepend rest τ ρ
  | slice gap part later ih => rw [append, append, append, ih]

@[simp] theorem slices_append : (σ.append τ).slices = σ.slices ++ τ.slices := by
  induction σ with
  | tail rest => exact slices_prepend rest τ
  | slice gap part later ih => simp [append, slices, ih]

@[simp] theorem outside_append : (σ.append τ).outside = σ.outside ++ τ.outside := by
  induction σ with
  | tail rest => exact outside_prepend rest τ
  | slice gap part later ih => simp [append, outside, ih]

variable {σ} in
theorem refill_append {parts : List (List β)} (h : parts.length = σ.slices.length)
    (parts' : List (List β)) :
    (σ.append τ).refill (parts ++ parts') = σ.refill parts ++ τ.refill parts' := by
  induction σ generalizing parts with
  | tail rest =>
    obtain rfl := List.length_eq_zero_iff.1 h
    exact refill_prepend rest τ parts'
  | slice gap part later ih =>
    cases parts with
    | nil => exact absurd h (by simp [slices])
    | cons new parts =>
      have hlater := ih (by simpa [slices] using h)
      simp only [append, List.cons_append, refill, hlater, List.append_assoc]

end Lemmas

end Sliced

theorem Cut.parts_eq_gaps (c : Cut) : c.parts = c.sliced.gaps := by
  obtain ⟨hits, tail⟩ := c
  induction hits with
  | nil => rfl
  | cons h hits ih => exact congrArg (h.gap :: ·) ih

theorem Cut.sliced_prepend (x : Text) (c : Cut) : (c.prepend x).sliced = c.sliced.prepend x := by
  obtain ⟨hits, tail⟩ := c
  cases hits <;> rfl

namespace Pattern

variable {p : Pattern} {b b' : Option Char} {x y m s : Text}

/-- The cut of a text behind a character. -/
def slicedFrom (p : Pattern) (b : Option Char) (s : Text) : Sliced Char := (p.cutFrom b s).sliced

theorem slicedFrom_skips (hp : p.Consumes) (h : p.Skips b x s) :
    p.slicedFrom b (x ++ s) = (p.slicedFrom (x.getLast?.or b) s).prepend x := by
  rw [slicedFrom, cutFrom_skips hp h, Cut.sliced_prepend]
  rfl

theorem slicedFrom_hit (hp : p.Consumes) {stop : Cursor} (hm : m ≠ [])
    (h : p.at? b (m ++ s) = some stop) (hrest : stop.rest = s) :
    p.slicedFrom b (m ++ s) = .slice [] m (p.slicedFrom (m.getLast?.or b) s) := by
  rw [slicedFrom, cutFrom_hit hp hm h hrest]
  rfl

theorem slicedFrom_nil (hp : p.Consumes) : p.slicedFrom b [] = .tail [] := by
  rw [slicedFrom, cutFrom, cutAtMost_nil hp]
  rfl

theorem erase_eq (p : Pattern) (s : Text) : p.erase s = (p.slicedFrom none s).outside := by
  have hcut : ∀ c : Cut, c.replace (fun _ => []) = c.sliced.outside := by
    rintro ⟨hits, tail⟩
    induction hits with
    | nil => rfl
    | cons h hits ih =>
      have hlater : (hits.flatMap fun h => h.gap ++ []) ++ tail = (Cut.sliced ⟨hits, tail⟩).outside :=
        ih
      simp only [Cut.replace, List.flatMap_cons, List.append_assoc, hlater]
      rw [List.nil_append]
      rfl
  exact hcut _

/-! ## Texts that stand apart -/

/-- The text is cut in the same way, whatever stands behind it, and this is cut apart from it. -/
def Apart (p : Pattern) (b : Option Char) (x : Text) : Prop :=
  ∀ s, p.slicedFrom b (x ++ s) = (p.slicedFrom b x).append (p.slicedFrom (x.getLast?.or b) s)

theorem apart_nil (hp : p.Consumes) : p.Apart b [] := by
  intro s
  rw [slicedFrom_nil hp]
  exact (Sliced.prepend_nil _).symm

theorem apart_of_skips (hp : p.Consumes) (h : ∀ s, p.Skips b x s) : p.Apart b x := by
  intro s
  have halone := slicedFrom_skips hp (h [])
  rw [List.append_nil, slicedFrom_nil hp] at halone
  rw [slicedFrom_skips hp (h s), halone]
  simp [Sliced.prepend, Sliced.append]

theorem Apart.append (hx : p.Apart b x) (hy : p.Apart (x.getLast?.or b) y) :
    p.Apart b (x ++ y) := by
  intro s
  rw [List.append_assoc, hx, hy, hx y, Sliced.append_assoc, getLast?_append_or]

/-- What is left of a text that stands apart. -/
def eraseFrom (p : Pattern) (b : Option Char) (s : Text) : Text := (p.slicedFrom b s).outside

theorem Apart.eraseFrom_append (hx : p.Apart b x) (s : Text) :
    p.eraseFrom b (x ++ s) = p.eraseFrom b x ++ p.eraseFrom (x.getLast?.or b) s := by
  rw [eraseFrom, hx, Sliced.outside_append]
  rfl

theorem eraseFrom_skips (hp : p.Consumes) (h : ∀ s, p.Skips b x s) : p.eraseFrom b x = x := by
  have halone := slicedFrom_skips hp (h [])
  rw [List.append_nil, slicedFrom_nil hp] at halone
  rw [eraseFrom, halone]
  simp [Sliced.prepend, Sliced.outside]

/-! ## The character in front -/

/-- The pattern does not tell the two characters from each other. -/
def EdgesAgree (b b' : Option Char) : Pattern → Prop
  | edge ok => ∀ after, ok b after = ok b' after
  | seq p q | alt p q => p.EdgesAgree b b' ∧ q.EdgesAgree b b'
  | many p | fewest p | capture _ p | notAhead p => p.EdgesAgree b b'
  | done | one _ | again _ => True

theorem edgesAgree_lit (w : Text) : (lit w).EdgesAgree b b' := by
  induction w with
  | nil => trivial
  | cons c w ih =>
    cases w with
    | nil => trivial
    | cons d w => exact ⟨trivial, ih⟩

/-- Two places that differ at most in the character in front of them, which is one of the two. -/
def Level (b b' : Option Char) (s s' : Cursor) : Prop :=
  s.rest = s'.rest ∧ s.slots = s'.slots ∧ (s.before = s'.before ∨ s.before = b ∧ s'.before = b')

/-- Two continuations that go on to the same text. -/
def SameRest (b b' : Option Char) (k k' : Accept) : Prop :=
  ∀ t t', Level b b' t t' → (k t).map (·.rest) = (k' t').map (·.rest)

theorem isSome_eq_of_map_rest {o o' : Option Cursor} (h : o.map (·.rest) = o'.map (·.rest)) :
    o.isSome = o'.isSome := by
  have hsome := congrArg Option.isSome h
  rwa [Option.isSome_map, Option.isSome_map] at hsome

theorem run_alt {p q : Pattern} (s : Cursor) (k : Accept) :
    (alt p q).run s k = (p.run s k).or (q.run s k) := by
  rw [run]
  cases p.run s k <;> rfl

theorem greedily_succ (step : Cursor → Accept → Option Cursor) (n : Nat) (s : Cursor) (k : Accept) :
    greedily step (n + 1) s k = (step s fun t => greedily step n t k).or (k s) := by
  rw [greedily]
  cases step s fun t => greedily step n t k <;> rfl

theorem reluctantly_succ (step : Cursor → Accept → Option Cursor) (n : Nat) (s : Cursor)
    (k : Accept) :
    reluctantly step (n + 1) s k = (k s).or (step s fun t => reluctantly step n t k) := by
  rw [reluctantly]
  cases k s <;> rfl

theorem run_congr (h : p.EdgesAgree b b') {s s' : Cursor} {k k' : Accept} (hs : Level b b' s s')
    (hk : SameRest b b' k k') : (p.run s k).map (·.rest) = (p.run s' k').map (·.rest) := by
  induction p generalizing s s' k k' with
  | done => exact hk s s' hs
  | one ok =>
    rw [run, run, ← hs.1]
    split
    · rfl
    · split
      · exact hk _ _ ⟨rfl, hs.2.1, .inl rfl⟩
      · rfl
  | seq p q ihp ihq => exact ihp h.1 hs fun t t' ht => ihq h.2 ht hk
  | alt p q ihp ihq =>
    rw [run_alt, run_alt, Option.map_or, Option.map_or, ihp h.1 hs hk, ihq h.2 hs hk]
  | many p ih =>
    have hrounds : ∀ n, ∀ {s s' : Cursor}, Level b b' s s' →
        (greedily p.run n s k).map (·.rest) = (greedily p.run n s' k').map (·.rest) := by
      intro n
      induction n with
      | zero => exact fun hs => hk _ _ hs
      | succ n ihn =>
        intro s s' hs
        rw [greedily_succ, greedily_succ, Option.map_or, Option.map_or, hk _ _ hs,
          ih h hs fun t t' ht => ihn ht]
    rw [run, run, ← hs.1]
    exact hrounds _ hs
  | fewest p ih =>
    have hrounds : ∀ n, ∀ {s s' : Cursor}, Level b b' s s' →
        (reluctantly p.run n s k).map (·.rest) = (reluctantly p.run n s' k').map (·.rest) := by
      intro n
      induction n with
      | zero => exact fun hs => hk _ _ hs
      | succ n ihn =>
        intro s s' hs
        rw [reluctantly_succ, reluctantly_succ, Option.map_or, Option.map_or, hk _ _ hs,
          ih h hs fun t t' ht => ihn ht]
    rw [run, run, ← hs.1]
    exact hrounds _ hs
  | capture label p ih =>
    refine ih h hs fun t t' ht => hk _ _ ⟨ht.1, ?_, ht.2.2⟩
    rw [hs.1, ht.1, ht.2.1]
  | again label =>
    have hget : s.get? label = s'.get? label := by rw [Cursor.get?, Cursor.get?, hs.2.1]
    rw [run, run, ← hget, ← hs.1]
    cases s.get? label with
    | none => rfl
    | some word =>
      cases hdrop : Text.dropFront? word s.rest with
      | none => simp [hdrop]
      | some r =>
        simp only [Option.bind_eq_bind, Option.bind_some, hdrop]
        refine hk _ _ ⟨rfl, hs.2.1, ?_⟩
        cases word.getLast? with
        | none => exact hs.2.2
        | some c => exact .inl rfl
  | notAhead p ih =>
    have hstops : (p.run s some).map (·.rest) = (p.run s' some).map (·.rest) :=
      ih h hs fun t t' ht => congrArg some ht.1
    have hahead := isSome_eq_of_map_rest hstops
    rw [run, run]
    cases hr : p.run s some <;> cases hr' : p.run s' some <;> rw [hr, hr'] at hahead
    · exact hk _ _ hs
    · exact absurd hahead (by simp)
    · exact absurd hahead (by simp)
  | edge ok =>
    have hedge : ok s.before s.rest.head? = ok s'.before s'.rest.head? := by
      rw [hs.1]
      rcases hs.2.2 with heq | ⟨hb, hb'⟩
      · rw [heq]
      · rw [hb, hb']
        exact h _
    rw [run, run, hedge]
    split
    · exact hk _ _ hs
    · rfl

theorem at?_congr (h : p.EdgesAgree b b') (s : Text) :
    (p.at? b s).map (·.rest) = (p.at? b' s).map (·.rest) :=
  run_congr h ⟨rfl, rfl, .inr ⟨rfl, rfl⟩⟩ fun _ _ ht => congrArg some ht.1

/-- A cut goes over a character at which no match starts, or over a match. -/
theorem cutFrom_induction {p : Pattern} (hp : p.Consumes) {motive : Option Char → Text → Prop}
    (nil : ∀ b, motive b [])
    (gap : ∀ b c s, p.at? b (c :: s) = none → motive (some c) s → motive b (c :: s))
    (hit : ∀ b m stop, m ≠ [] → p.at? b (m ++ stop.rest) = some stop →
      motive (m.getLast?.or b) stop.rest → motive b (m ++ stop.rest))
    (b : Option Char) (s : Text) : motive b s := by
  induction hn : s.length using Nat.strong_induction_on generalizing b s with
  | h n ih =>
    subst hn
    cases s with
    | nil => exact nil b
    | cons c s =>
      cases hat : p.at? b (c :: s) with
      | none => exact gap b c s hat (ih s.length (by simp) _ s rfl)
      | some stop =>
        obtain ⟨m, hm⟩ := (matches_of_at? hat).exists_append
        simp only at hm
        have hless : stop.rest.length < (c :: s).length := hp _ _ (matches_of_at? hat)
        have hne : m ≠ [] := by
          rintro rfl
          rw [hm] at hless
          exact absurd hless (by simp)
        rw [hm] at hat ⊢
        exact hit b m stop hne hat (ih _ hless _ _ rfl)

/-- Behind two characters that the pattern does not tell from each other, a text is cut in the same
way. -/
theorem slicedFrom_congr (hp : p.Consumes) (h : p.EdgesAgree b b') (s : Text) :
    p.slicedFrom b s = p.slicedFrom b' s := by
  refine cutFrom_induction hp (motive := fun b s => p.EdgesAgree b b' →
    p.slicedFrom b s = p.slicedFrom b' s) (fun b _ => ?_) (fun b c s hat _ h => ?_)
    (fun b m stop hne hat _ h => ?_) b s h
  · rw [slicedFrom_nil hp, slicedFrom_nil hp]
  · have hsame := at?_congr h (c :: s)
    rw [hat, Option.map_none, eq_comm, Option.map_eq_none_iff] at hsame
    have hskips : ∀ {b}, p.at? b (c :: s) = none → p.slicedFrom b (c :: s) =
        (p.slicedFrom (some c) s).prepend [c] := fun hnone =>
      slicedFrom_skips (x := [c]) hp ⟨hnone, trivial⟩
    rw [hskips hat, hskips hsame]
  · have hsame := at?_congr h (m ++ stop.rest)
    rw [hat, Option.map_some] at hsame
    obtain ⟨stop', hat', hrest⟩ := Option.map_eq_some_iff.1 hsame.symm
    obtain ⟨e, he⟩ := Option.ne_none_iff_exists'.1 (mt List.getLast?_eq_none_iff.1 hne)
    rw [slicedFrom_hit hp hne hat rfl, slicedFrom_hit hp hne hat' hrest, he]
    rfl

theorem eraseFrom_congr (hp : p.Consumes) (h : p.EdgesAgree b b') (s : Text) :
    p.eraseFrom b s = p.eraseFrom b' s := by
  rw [eraseFrom, slicedFrom_congr hp h, eraseFrom]

end Pattern

end LatexPreview
