import Mathlib
import LatexPreview.Proofs.Pattern.Shapes

/-!
# Searching from left to right

A search goes over a part of a text in which no match starts, and stops behind a match.  So what
a whole search yields is put together from what it does with the parts of a text.

* `Text.Avoids`: no occurrence of a word starts in a text that is followed by another
* `Pattern.Skips`: no match starts in a text that is followed by another
* `Matches.before_eq`: a match ends behind its last character
* `cutFrom_skips`, `cutFrom_hit`: a cut goes over such a text, and over a match
* `Pattern.countFrom` counts the matches from some place on
-/

namespace LatexPreview

/-! ## Occurrences of a word -/

namespace Text

/-- No occurrence of the word starts in the first text, when the second one follows. -/
def Avoids (w : Text) : Text → Text → Prop
  | [], _ => True
  | c :: x, s => ¬ w <+: c :: (x ++ s) ∧ Avoids w x s

variable {w x y s : Text}

theorem avoids_append : Avoids w (x ++ y) s ↔ Avoids w x (y ++ s) ∧ Avoids w y s := by
  induction x with
  | nil => simp [Avoids]
  | cons c x ih => simp [Avoids, ih, and_assoc]

theorem avoids_of_not_mem {c : Char} {w : Text} (h : c ∉ x) : Avoids (c :: w) x s := by
  induction x with
  | nil => trivial
  | cons d x ih =>
    obtain ⟨hne, hx⟩ := not_or.1 (List.mem_cons.not.1 h)
    exact ⟨fun hp => hne (List.cons_prefix_cons.1 hp).1, ih hx⟩

theorem dropFront?_eq_some_iff {r : Text} : dropFront? w s = some r ↔ s = w ++ r :=
  ⟨eq_append_of_dropFront?, fun h => h ▸ dropFront?_append w r⟩

theorem dropFront?_eq_none_iff : dropFront? w s = none ↔ ¬ w <+: s := by
  constructor
  · rintro h ⟨r, rfl⟩
    rw [dropFront?_append] at h
    exact absurd h (by simp)
  · intro h
    refine Option.eq_none_iff_forall_ne_some.2 fun r hr => h ⟨r, ?_⟩
    exact (dropFront?_eq_some_iff.1 hr).symm

theorem find?_front (w s : Text) : find? w (w ++ s) = some ([], s) := by
  cases hs : w ++ s with
  | nil =>
    obtain ⟨rfl, rfl⟩ := List.append_eq_nil_iff.1 hs
    rfl
  | cons c r => rw [find?, ← hs, dropFront?_append]

theorem contains_iff {s needle : Text} : s.contains needle = true ↔ needle <:+: s := by
  rw [contains, Option.isSome_iff_exists]
  constructor
  · rintro ⟨⟨front, rest⟩, hfind⟩
    exact ⟨front, rest, (find?_eq_some hfind).symm⟩
  · rintro ⟨front, rest, rfl⟩
    induction front with
    | nil =>
      rw [List.nil_append, find?_front]
      exact ⟨_, rfl⟩
    | cons c front ih =>
      obtain ⟨⟨u, v⟩, huv⟩ := ih
      rw [List.cons_append, List.cons_append, find?]
      split
      · exact ⟨_, rfl⟩
      · rw [huv]
        exact ⟨_, rfl⟩

/-- A search for a word goes over a text that avoids it. -/
theorem find?_avoids (h : Avoids w x s) :
    find? w (x ++ s) = (find? w s).map fun found => (x ++ found.1, found.2) := by
  induction x with
  | nil => simp
  | cons c x ih =>
    rw [List.cons_append, find?, dropFront?_eq_none_iff.2 h.1, ih h.2]
    simp [Option.map_map, Function.comp_def]

/-- Nothing is found in a text that avoids the word to its end. -/
theorem find?_eq_none (hw : w ≠ []) (h : Avoids w x []) : find? w x = none := by
  have hfind := find?_avoids h
  have hnil : find? w [] = none := by simp [find?, hw]
  rwa [List.append_nil, hnil] at hfind

/-- The first occurrence is the one behind a text that avoids the word. -/
theorem find?_append (h : Avoids w x (w ++ s)) : find? w (x ++ (w ++ s)) = some (x, s) := by
  rw [find?_avoids h, find?_front]
  simp

end Text

/-- The cut of a text with another one in front of it. -/
def Cut.prepend (x : Text) : Cut → Cut
  | ⟨[], tail⟩ => ⟨[], x ++ tail⟩
  | ⟨h :: hits, tail⟩ => ⟨{ h with gap := x ++ h.gap } :: hits, tail⟩

namespace Pattern

variable {p : Pattern} {b : Option Char}

/-! ## The end of a match -/

theorem getLast?_append_or (u v : Text) (b : Option Char) :
    (u ++ v).getLast?.or b = v.getLast?.or (u.getLast?.or b) := by
  rw [List.getLast?_append, Option.or_assoc]

theorem Matches.exists_before {s t : Cursor} (h : p.Matches s t) :
    ∃ w, s.rest = w ++ t.rest ∧ t.before = w.getLast?.or s.before := by
  have htrans : ∀ {s m t : Cursor} {u v : Text}, s.rest = u ++ m.rest →
      m.before = u.getLast?.or s.before → m.rest = v ++ t.rest →
      t.before = v.getLast?.or m.before →
      ∃ w, s.rest = w ++ t.rest ∧ t.before = w.getLast?.or s.before := by
    intro s m t u v hu hbu hv hbv
    exact ⟨u ++ v, by rw [hu, hv, List.append_assoc], by rw [hbv, hbu, getLast?_append_or]⟩
  induction p generalizing s t with
  | done => exact ⟨[], by rw [show t = s from h]; rfl, by rw [show t = s from h]; rfl⟩
  | one ok =>
    obtain ⟨c, r, hs, -, rfl⟩ := h
    exact ⟨[c], hs, rfl⟩
  | seq p q ihp ihq =>
    obtain ⟨m, hp, hq⟩ := h
    obtain ⟨u, hu, hbu⟩ := ihp hp
    obtain ⟨v, hv, hbv⟩ := ihq hq
    exact htrans hu hbu hv hbv
  | alt p q ihp ihq =>
    rcases h with h | h
    · exact ihp h
    · exact ihq h
  | many p ih | fewest p ih =>
    refine Relation.ReflTransGen.head_induction_on h ⟨[], rfl, rfl⟩ ?_
    rintro a b hab - ⟨v, hv, hbv⟩
    obtain ⟨u, hu, hbu⟩ := ih hab
    exact htrans hu hbu hv hbv
  | capture label p ih =>
    obtain ⟨m, hm, rfl⟩ := h
    obtain ⟨w, hw, hbefore⟩ := ih hm
    exact ⟨w, hw, hbefore⟩
  | again label =>
    obtain ⟨word, r, -, hs, rfl⟩ := h
    exact ⟨word, hs, rfl⟩
  | notAhead p _ | edge ok => exact ⟨[], by rw [h.2]; rfl, by rw [h.2]; rfl⟩

/-- A match ends behind its last character. -/
theorem Matches.before_eq {s t : Cursor} (h : p.Matches s t) {w : Text}
    (hw : s.rest = w ++ t.rest) : t.before = w.getLast?.or s.before := by
  obtain ⟨u, hu, hbefore⟩ := h.exists_before
  rw [hbefore, List.append_cancel_right (hu.symm.trans hw)]

/-! ## Texts without matches -/

/-- No match starts in the first text, when the second one follows. -/
def Skips (p : Pattern) : Option Char → Text → Text → Prop
  | _, [], _ => True
  | b, c :: x, s => p.at? b (c :: (x ++ s)) = none ∧ p.Skips (some c) x s

theorem skips_append {x y s : Text} :
    p.Skips b (x ++ y) s ↔ p.Skips b x (y ++ s) ∧ p.Skips (x.getLast?.or b) y s := by
  induction x generalizing b with
  | nil => simp [Skips]
  | cons c x ih =>
    have hlast : (c :: x).getLast?.or b = x.getLast?.or (some c) := getLast?_append_or [c] x b
    simp [Skips, ih, and_assoc, hlast]

theorem at?_eq_none_of_leads {ws : List Text} (hp : p.Leads ws) {s : Text}
    (h : ∀ w ∈ ws, ¬ w <+: s) : p.at? b s = none := by
  refine Option.eq_none_iff_forall_ne_some.2 fun stop hstop => ?_
  obtain ⟨w, hw, m, hs⟩ := hp _ _ (matches_of_at? hstop)
  exact h w hw ⟨m ++ stop.rest, by simpa using hs.symm⟩

/-- A text that avoids the first words of all matches is gone over. -/
theorem Leads.skips {ws : List Text} (hp : p.Leads ws) {x s : Text}
    (h : ∀ w ∈ ws, Text.Avoids w x s) : p.Skips b x s := by
  induction x generalizing b with
  | nil => trivial
  | cons c x ih =>
    exact ⟨at?_eq_none_of_leads hp fun w hw => (h w hw).1, ih fun w hw => (h w hw).2⟩

/-- A text without the first character of all matches is gone over. -/
theorem Opens.skips {c : Char} (hp : p.Opens c) {x : Text} (hx : c ∉ x) (s : Text) :
    p.Skips b x s := by
  have hleads : p.Leads [[c]] := by
    intro s t h
    obtain ⟨w, hw⟩ := hp s t h
    exact ⟨[c], by simp, w, hw⟩
  refine hleads.skips fun w hw => ?_
  rw [List.mem_singleton.1 hw]
  exact Text.avoids_of_not_mem hx

/-! ## Cuts -/

/-- Cuts a text at all matches, behind a given character. -/
def cutFrom (p : Pattern) (b : Option Char) (s : Text) : Cut := p.cutAtMost s.length b s

theorem first?_skips {x s : Text} (h : p.Skips b x s) :
    p.first? b (x ++ s) =
      (p.first? (x.getLast?.or b) s).map fun h => { h with gap := x ++ h.gap } := by
  induction x generalizing b with
  | nil => simp
  | cons c x ih =>
    have hlast : (c :: x).getLast?.or b = x.getLast?.or (some c) := getLast?_append_or [c] x b
    rw [List.cons_append, first?, h.1, ih h.2, hlast]
    simp [Option.map_map, Function.comp_def]

theorem first?_of_at? {m s : Text} {stop : Cursor} (hm : m ≠ [])
    (h : p.at? b (m ++ s) = some stop) (hrest : stop.rest = s) :
    p.first? b (m ++ s) = some ⟨[], m, stop⟩ := by
  obtain ⟨c, m, rfl⟩ := List.exists_cons_of_ne_nil hm
  rw [List.cons_append] at h ⊢
  rw [first?, h]
  simp only
  rw [hrest, ← List.cons_append, Text.between_append]

theorem Opens.consumes {c : Char} (hp : p.Opens c) : p.Consumes := by
  intro s t h
  obtain ⟨w, hw⟩ := hp s t h
  rw [hw]
  simp

theorem Consumes.alt {q : Pattern} (hp : p.Consumes) (hq : q.Consumes) : (alt p q).Consumes :=
  fun s t h => h.elim (hp s t) (hq s t)

theorem first?_nil (hp : p.Consumes) (b : Option Char) : p.first? b [] = none := by
  have hnone : p.at? b [] = none := Option.eq_none_iff_forall_ne_some.2 fun stop hstop =>
    absurd (hp _ _ (matches_of_at? hstop)) (Nat.not_lt_zero _)
  rw [first?, hnone]
  rfl

/-- In a text that is gone over there is no match. -/
theorem occursIn_eq_false (hp : p.Consumes) {s : Text} (h : p.Skips none s []) :
    p.occursIn s = false := by
  have hfirst := first?_skips h
  rw [List.append_nil, first?_nil hp] at hfirst
  rw [occursIn, Pattern.find?, hfirst]
  rfl

theorem cutAtMost_nil (hp : p.Consumes) (n : Nat) (b : Option Char) :
    p.cutAtMost n b [] = ⟨[], []⟩ := by
  cases n with
  | zero => rfl
  | succ n =>
    rw [cutAtMost, first?_nil hp]

/-- As every match consumes text, the number of characters is enough fuel. -/
theorem cutAtMost_eq (hp : p.Consumes) {n : Nat} {s : Text} (hn : s.length ≤ n) :
    p.cutAtMost n b s = p.cutFrom b s := by
  have hsame : ∀ {n m : Nat} {b : Option Char} {s : Text}, s.length ≤ n → s.length ≤ m →
      p.cutAtMost n b s = p.cutAtMost m b s := by
    intro n
    induction n with
    | zero =>
      intro m b s hn _
      obtain rfl := List.length_eq_zero_iff.1 (Nat.le_zero.1 hn)
      rw [cutAtMost_nil hp, cutAtMost_nil hp]
    | succ n ih =>
      intro m b s hn hm
      cases m with
      | zero =>
        obtain rfl := List.length_eq_zero_iff.1 (Nat.le_zero.1 hm)
        rw [cutAtMost_nil hp, cutAtMost_nil hp]
      | succ m =>
        rw [cutAtMost, cutAtMost]
        split
        · rfl
        · rename_i h hf
          obtain ⟨hs, hat, -⟩ := first?_eq_some hf
          have hless : h.stop.rest.length < (h.matched ++ h.stop.rest).length :=
            hp _ _ (matches_of_at? hat)
          have hlength : h.stop.rest.length < s.length := by
            rw [hs]
            simp at hless ⊢
            omega
          rw [ih (m := m) (by omega) (by omega)]
  exact hsame hn le_rfl

theorem cutAtMost_skips {x s : Text} (h : p.Skips b x s) (n : Nat) :
    p.cutAtMost n b (x ++ s) = (p.cutAtMost n (x.getLast?.or b) s).prepend x := by
  cases n with
  | zero => rfl
  | succ n =>
    rw [cutAtMost, cutAtMost, first?_skips h]
    cases p.first? (x.getLast?.or b) s <;> rfl

/-- A cut goes over a text without matches. -/
theorem cutFrom_skips (hp : p.Consumes) {x s : Text} (h : p.Skips b x s) :
    p.cutFrom b (x ++ s) = (p.cutFrom (x.getLast?.or b) s).prepend x := by
  rw [cutFrom, cutAtMost_skips h, cutAtMost_eq hp (by simp)]

/-- Without matches, a cut is nothing but a tail. -/
theorem cutFrom_eq_tail (hp : p.Consumes) {s : Text} (h : p.Skips b s []) :
    p.cutFrom b s = ⟨[], s⟩ := by
  have hcut := cutFrom_skips hp h
  have hnil : p.cutFrom (s.getLast?.or b) [] = ⟨[], []⟩ := cutAtMost_nil hp _ _
  rw [List.append_nil, hnil] at hcut
  simpa [Cut.prepend] using hcut

/-- A cut goes on behind a match. -/
theorem cutFrom_hit (hp : p.Consumes) {m s : Text} {stop : Cursor} (hm : m ≠ [])
    (h : p.at? b (m ++ s) = some stop) (hrest : stop.rest = s) :
    p.cutFrom b (m ++ s) = ⟨⟨[], m, stop⟩ :: (p.cutFrom (m.getLast?.or b) s).hits,
      (p.cutFrom (m.getLast?.or b) s).tail⟩ := by
  have hbefore : stop.before = m.getLast?.or b :=
    (matches_of_at? h).before_eq (by rw [hrest])
  obtain ⟨n, hn⟩ : ∃ n, (m ++ s).length = n + 1 := by
    refine ⟨(m ++ s).length - 1, ?_⟩
    have := List.length_pos_iff.2 hm
    simp
    omega
  have hless : s.length ≤ n := by
    have := List.length_pos_iff.2 hm
    simp at hn
    omega
  rw [cutFrom, hn, cutAtMost, first?_of_at? hm h hrest]
  simp only [hbefore, hrest]
  rw [cutAtMost_eq hp hless]

/-! ## Counting -/

/-- The number of matches behind a given character. -/
def countFrom (p : Pattern) (b : Option Char) (s : Text) : Nat := (p.cutFrom b s).hits.length

theorem count_eq (p : Pattern) (s : Text) : p.count s = p.countFrom none s := rfl

theorem count_eq_zero_iff (hp : p.Consumes) {s : Text} :
    p.count s = 0 ↔ p.occursIn s = false := by
  rw [count, cut, occursIn, find?]
  cases s with
  | nil => simp [cutAtMost_nil hp, first?_nil hp]
  | cons c s =>
    rw [List.length_cons, cutAtMost]
    cases p.first? none (c :: s) <;> simp

/-- A text without matches is left as it is. -/
theorem replaceM_of_count_eq_zero {σ : Type} {s : Text} (h : p.count s = 0)
    (f : Hit → StateM σ Text) : p.replaceM f s = pure s := by
  have hhits : (p.cut s).hits = [] := List.length_eq_zero_iff.1 h
  have htail : (p.cut s).tail = s := by
    have hcut := p.cut_cutsInto s
    rw [hhits] at hcut
    generalize (p.cut s).tail = tail at hcut ⊢
    cases hcut
    rfl
  rw [replaceM, Cut.replaceM, hhits, htail]
  rfl

theorem length_hits_prepend (x : Text) (c : Cut) : (c.prepend x).hits.length = c.hits.length := by
  obtain ⟨hits, tail⟩ := c
  cases hits <;> rfl

theorem countFrom_skips (hp : p.Consumes) {x s : Text} (h : p.Skips b x s) :
    p.countFrom b (x ++ s) = p.countFrom (x.getLast?.or b) s := by
  rw [countFrom, cutFrom_skips hp h, length_hits_prepend]
  rfl

theorem countFrom_hit (hp : p.Consumes) {m s : Text} {stop : Cursor} (hm : m ≠ [])
    (h : p.at? b (m ++ s) = some stop) (hrest : stop.rest = s) :
    p.countFrom b (m ++ s) = 1 + p.countFrom (m.getLast?.or b) s := by
  rw [countFrom, cutFrom_hit hp hm h hrest, List.length_cons, Nat.add_comm]
  rfl

end Pattern

end LatexPreview
