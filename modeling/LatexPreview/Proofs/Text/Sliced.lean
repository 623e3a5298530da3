import Mathlib
import LatexPreview.Pattern.Cut

/-!
# Lists cut into slices

A search cuts a text into its matches and what stands between them.  The same cut may be made
in whatever else is laid along the text: the places its letters come from, or the parts
that it is put together from.

* `Sliced` is a list with some of its parts marked as slices
* `Sliced.refill` puts something else in place of the slices
* `Sliced.along` cuts a second list at the same places
* `Sliced.exists_units`: a cut that goes through no unit of a list is a cut of its units
-/

namespace LatexPreview

variable {β γ : Type}

/-- A list with slices in it, and what stands in front of each slice and behind the last. -/
inductive Sliced (β : Type) where
  | tail (rest : List β)
  | slice (gap part : List β) (later : Sliced β)

/-- The matches of a cut as slices of the text. -/
def Cut.sliced (c : Cut) : Sliced Char :=
  c.hits.foldr (fun h later => .slice h.gap h.matched later) (.tail c.tail)

namespace Sliced

/-- The list that has been cut. -/
def whole : Sliced β → List β
  | tail rest => rest
  | slice gap part later => gap ++ part ++ later.whole

/-- The slices. -/
def slices : Sliced β → List (List β)
  | tail _ => []
  | slice _ part later => part :: later.slices

/-- What stands outside of the slices. -/
def outside : Sliced β → List β
  | tail rest => rest
  | slice gap _ later => gap ++ later.outside

/-- The list with other things in place of the slices. -/
def refill : Sliced β → List (List β) → List β
  | tail rest, _ => rest
  | slice gap _ later, [] => gap ++ later.refill []
  | slice gap _ later, part :: parts => gap ++ part ++ later.refill parts

/-- All parts changed. -/
def map (f : List β → List γ) : Sliced β → Sliced γ
  | tail rest => tail (f rest)
  | slice gap part later => slice (f gap) (f part) (later.map f)

/-- The cut with a list in front of it. -/
def prepend (front : List β) : Sliced β → Sliced β
  | tail rest => tail (front ++ rest)
  | slice gap part later => slice (front ++ gap) part later

/-- A second list, cut at the same places. -/
def along : Sliced β → List γ → Sliced γ
  | tail _, l => tail l
  | slice gap part later, l =>
    slice (l.take gap.length) ((l.drop gap.length).take part.length)
      (later.along ((l.drop gap.length).drop part.length))

/-! ## What a cut is put together from -/

theorem whole_prepend (front : List β) (σ : Sliced β) :
    (σ.prepend front).whole = front ++ σ.whole := by
  cases σ <;> simp [prepend, whole]

theorem slices_map (f : List β → List γ) (σ : Sliced β) :
    (σ.map f).slices = σ.slices.map f := by
  induction σ with
  | tail rest => rfl
  | slice gap part later ih => simp [map, slices, ih]

/-- A change of all parts that keeps joins is a change of the whole. -/
theorem whole_map {f : List β → List γ} (hf : ∀ x y, f (x ++ y) = f x ++ f y) (σ : Sliced β) :
    (σ.map f).whole = f σ.whole := by
  induction σ with
  | tail rest => rfl
  | slice gap part later ih => simp only [map, whole, ih, hf]

theorem refill_map {f : List β → List γ} (hf : ∀ x y, f (x ++ y) = f x ++ f y) (σ : Sliced β)
    (parts : List (List β)) : (σ.map f).refill (parts.map f) = f (σ.refill parts) := by
  induction σ generalizing parts with
  | tail rest => rfl
  | slice gap part later ih =>
    cases parts with
    | nil => rw [refill, hf, ← ih]; rfl
    | cons new parts => rw [refill, hf, hf, ← ih]; rfl

theorem map_map {δ : Type} (f : List β → List γ) (g : List γ → List δ) (σ : Sliced β) :
    (σ.map f).map g = σ.map (g ∘ f) := by
  induction σ with
  | tail rest => rfl
  | slice gap part later ih => simp [map, ih]

theorem whole_perm (σ : Sliced β) : σ.whole.Perm (σ.outside ++ σ.slices.flatten) := by
  induction σ with
  | tail rest => simp [whole, outside, slices]
  | slice gap part later ih =>
    rw [whole, outside, slices, List.flatten_cons, List.append_assoc, List.append_assoc]
    refine List.Perm.append_left gap ((List.Perm.append_left part ih).trans ?_)
    rw [← List.append_assoc, ← List.append_assoc]
    exact List.perm_append_comm.append_right _

theorem refill_perm (σ : Sliced β) {parts : List (List β)}
    (h : parts.length = σ.slices.length) :
    (σ.refill parts).Perm (σ.outside ++ parts.flatten) := by
  induction σ generalizing parts with
  | tail rest =>
    obtain rfl := List.length_eq_zero_iff.1 h
    simp [refill, outside]
  | slice gap part later ih =>
    cases parts with
    | nil => exact absurd h (by simp [slices])
    | cons new parts =>
      rw [refill, outside, List.flatten_cons, List.append_assoc, List.append_assoc]
      refine List.Perm.append_left gap
        ((List.Perm.append_left new (ih (by simpa [slices] using h))).trans ?_)
      rw [← List.append_assoc, ← List.append_assoc]
      exact List.perm_append_comm.append_right _

theorem mem_refill {σ : Sliced β} {parts : List (List β)} {x : β} (h : x ∈ σ.refill parts) :
    x ∈ σ.whole ∨ x ∈ parts.flatten := by
  induction σ generalizing parts with
  | tail rest => exact .inl h
  | slice gap part later ih =>
    cases parts with
    | nil =>
      rcases List.mem_append.1 h with h | h
      · exact .inl (by simp [whole, h])
      · exact (ih h).imp (fun h => by simp [whole, h]) id
    | cons new parts =>
      simp only [refill, List.mem_append] at h
      rcases h with (h | h) | h
      · exact .inl (by simp [whole, h])
      · exact .inr (by simp [h])
      · exact (ih h).imp (fun h => by simp [whole, h]) fun h => List.mem_append_right new h

/-! ## Cuts along one another -/

theorem whole_along (σ : Sliced β) (l : List γ) : (σ.along l).whole = l := by
  induction σ generalizing l with
  | tail rest => rfl
  | slice gap part later ih => simp [along, whole, ih]

/-- The list along which a second one is cut may be read off from that. -/
theorem along_map (f : γ → β) (σ : Sliced β) {l : List γ} (h : l.map f = σ.whole) :
    (σ.along l).map (List.map f) = σ := by
  induction σ generalizing l with
  | tail rest => rw [along, map, h, whole]
  | slice gap part later ih =>
    have hdrop : ((l.drop gap.length).drop part.length).map f = later.whole := by
      rw [List.map_drop, List.map_drop, h, whole, List.append_assoc, List.drop_left,
        List.drop_left]
    rw [along, map, ih hdrop, List.map_take, List.map_take, List.map_drop, h, whole,
      List.append_assoc, List.take_left, List.drop_left, List.take_left]

/-- A cut is known from the list and from what the parts become. -/
theorem eq_of_map_eq {f : List β → List γ} (hf : ∀ x y, f (x ++ y) = f x ++ f y)
    (hne : ∀ x, f x = [] → x = []) {σ ρ : Sliced β} (hwhole : σ.whole = ρ.whole)
    (hmap : σ.map f = ρ.map f) : σ = ρ := by
  have hcancel : ∀ {x y x' y' : List β}, x ++ y = x' ++ y' → f x = f x' → x = x' ∧ y = y' := by
    intro x y x' y' h hfx
    rcases List.append_eq_append_iff.1 h with ⟨z, rfl, rfl⟩ | ⟨z, rfl, rfl⟩
    · rw [hf] at hfx
      simp [hne z (List.append_right_eq_self.1 hfx.symm)]
    · rw [hf] at hfx
      simp [hne z (List.append_right_eq_self.1 hfx)]
  induction σ generalizing ρ with
  | tail rest =>
    cases ρ with
    | tail rest' => rw [show rest = rest' from hwhole]
    | slice gap part later => exact absurd hmap (by simp [map])
  | slice gap part later ih =>
    cases ρ with
    | tail rest => exact absurd hmap (by simp [map])
    | slice gap' part' later' =>
      obtain ⟨hgap, hpart, hlater⟩ := Sliced.slice.inj hmap
      rw [whole, whole, List.append_assoc, List.append_assoc] at hwhole
      obtain ⟨hgap', hrest⟩ := hcancel hwhole hgap
      obtain ⟨hpart', hrest'⟩ := hcancel hrest hpart
      rw [hgap', hpart', ih hrest' hlater]

/-! ## Where slices stand -/

/-- A slice with what stands in front of it and behind it. -/
inductive Has : Sliced β → List β → List β → List β → Prop
  | here {gap part : List β} {later : Sliced β} :
    Has (slice gap part later) gap part later.whole
  | later {gap part : List β} {later : Sliced β} {l m r : List β} (h : later.Has l m r) :
    Has (slice gap part later) (gap ++ part ++ l) m r

theorem Has.whole_eq {σ : Sliced β} {l m r : List β} (h : σ.Has l m r) :
    σ.whole = l ++ m ++ r := by
  induction h with
  | here => rfl
  | later _ ih => rw [whole, ih]; simp

theorem exists_has_of_mem {σ : Sliced β} {m : List β} (h : m ∈ σ.slices) :
    ∃ l r, σ.Has l m r := by
  induction σ with
  | tail rest => exact absurd h (by simp [slices])
  | slice gap part later ih =>
    rcases List.mem_cons.1 h with rfl | h
    · exact ⟨gap, later.whole, .here⟩
    · obtain ⟨l, r, hhas⟩ := ih h
      exact ⟨_, r, hhas.later⟩

theorem Has.mem {σ : Sliced β} {l m r : List β} (h : σ.Has l m r) : m ∈ σ.slices := by
  induction h with
  | here => simp [slices]
  | later _ ih => simp [slices, ih]

/-- Of two slices, one stands in front of the other. -/
theorem Has.ordered {σ : Sliced β} {l m r l' m' r' : List β} (h : σ.Has l m r)
    (h' : σ.Has l' m' r') : (l = l' ∧ m = m') ∨ l ++ m <+: l' ∨ l' ++ m' <+: l := by
  induction h generalizing l' m' r' with
  | here =>
    cases h' with
    | here => exact .inl ⟨rfl, rfl⟩
    | later h' => exact .inr (.inl (List.prefix_append _ _))
  | later h ih =>
    cases h' with
    | here => exact .inr (.inr (List.prefix_append _ _))
    | later h' =>
      rcases ih h' with ⟨rfl, rfl⟩ | hp | hp
      · exact .inl ⟨rfl, rfl⟩
      · exact .inr (.inl (by rw [List.append_assoc]; exact (List.prefix_append_right_inj _).2 hp))
      · exact .inr (.inr (by rw [List.append_assoc]; exact (List.prefix_append_right_inj _).2 hp))

/-- A unit that is a slice is gone through at no end of a slice. -/
theorem Has.fits {σ : Sliced β} {l₀ v w r₀ l m r : List β} (h₀ : σ.Has l₀ (v ++ w) r₀)
    (hv : v ≠ []) (hw : w ≠ []) (h : σ.Has l m r) : l₀ ++ v ≠ l ∧ l₀ ++ v ≠ l ++ m := by
  have hv' := List.length_pos_iff.2 hv
  have hw' := List.length_pos_iff.2 hw
  have hlengths : l.length + m.length ≤ l₀.length ∨ l.length = l₀.length ∧
      m.length = v.length + w.length ∨ l₀.length + (v.length + w.length) ≤ l.length := by
    rcases h₀.ordered h with ⟨rfl, rfl⟩ | hp | hp
    · exact .inr (.inl ⟨rfl, List.length_append⟩)
    · have hle := hp.length_le
      rw [List.length_append, List.length_append] at hle
      exact .inr (.inr hle)
    · have hle := hp.length_le
      rw [List.length_append] at hle
      exact .inl hle
  constructor
  · intro heq
    have hsame : l₀.length + v.length = l.length := by rw [← heq, List.length_append]
    omega
  · intro heq
    have hsame : l₀.length + v.length = l.length + m.length := by
      rw [← List.length_append, heq, List.length_append]
    omega

/-- A unit that no slice has anything of is gone through at no end of a slice. -/
theorem Has.fits_of_disjoint {σ : Sliced β} {l₀ v w r₀ l m r : List β}
    (h₀ : σ.whole = l₀ ++ (v ++ w) ++ r₀) (hv : v ≠ []) (hw : w ≠ [])
    (hdisjoint : ∀ x ∈ v ++ w, x ∉ m) (hm : m ≠ []) (h : σ.Has l m r) :
    l₀ ++ v ≠ l ∧ l₀ ++ v ≠ l ++ m := by
  have hwhole : (l₀ ++ v) ++ (w ++ r₀) = l ++ (m ++ r) := by
    rw [← List.append_assoc l, ← h.whole_eq, h₀]
    simp
  constructor
  · intro heq
    rw [heq] at hwhole
    obtain ⟨x, w, rfl⟩ := List.exists_cons_of_ne_nil hw
    obtain ⟨y, m, rfl⟩ := List.exists_cons_of_ne_nil hm
    obtain ⟨rfl, -⟩ := List.cons.inj (List.append_cancel_left hwhole)
    exact hdisjoint x (by simp) (by simp)
  · intro heq
    have hlast : (l₀ ++ v).getLast? = (l ++ m).getLast? := by rw [heq]
    rw [List.getLast?_append_of_ne_nil _ hv, List.getLast?_append_of_ne_nil _ hm,
      List.getLast?_eq_some_getLast hv, List.getLast?_eq_some_getLast hm] at hlast
    exact hdisjoint _ (List.mem_append_left _ (List.getLast_mem hv))
      (Option.some.inj hlast ▸ List.getLast_mem hm)

/-! ## Cuts between units -/

/-- A cut of a list that is put together from units goes through a unit or between two. -/
theorem split_units {u : β → List γ} {units : List β} {x y : List γ}
    (h : units.flatMap u = x ++ y) :
    (∃ a b, units = a ++ b ∧ a.flatMap u = x ∧ b.flatMap u = y) ∨
      ∃ a b c v w, units = a ++ b :: c ∧ u b = v ++ w ∧ v ≠ [] ∧ w ≠ [] ∧
        x = a.flatMap u ++ v := by
  induction units generalizing x with
  | nil =>
    obtain ⟨rfl, rfl⟩ := List.append_eq_nil_iff.1 h.symm
    exact .inl ⟨[], [], rfl, rfl, rfl⟩
  | cons b units ih =>
    rw [List.flatMap_cons] at h
    rcases List.append_eq_append_iff.1 h with ⟨z, rfl, hz⟩ | ⟨w, hb, rfl⟩
    · rcases ih hz with ⟨a, c, rfl, rfl, rfl⟩ | ⟨a, b', c, v, w, rfl, hb', hv, hw, rfl⟩
      · exact .inl ⟨b :: a, c, rfl, rfl, rfl⟩
      · exact .inr ⟨b :: a, b', c, v, w, rfl, hb', hv, hw, by simp⟩
    · by_cases hx : x = []
      · subst hx
        exact .inl ⟨[], b :: units, rfl, rfl, by rw [List.flatMap_cons, hb]; rfl⟩
      by_cases hw : w = []
      · subst hw
        exact .inl ⟨[b], units, rfl, by simp [hb], by simp⟩
      · exact .inr ⟨[], b, units, x, w, rfl, hb, hx, hw, rfl⟩

/-- A cut that goes through no unit is a cut of the units. -/
theorem exists_units {u : β → List γ} {units : List β} {σ : Sliced γ}
    (h : units.flatMap u = σ.whole)
    (hfit : ∀ a b c v w, units = a ++ b :: c → u b = v ++ w → v ≠ [] → w ≠ [] →
      ∀ l m r, σ.Has l m r → a.flatMap u ++ v ≠ l ∧ a.flatMap u ++ v ≠ l ++ m) :
    ∃ ρ : Sliced β, ρ.whole = units ∧ ρ.map (List.flatMap u) = σ := by
  induction σ generalizing units with
  | tail rest => exact ⟨.tail units, rfl, by rw [map, h, whole]⟩
  | slice gap part later ih =>
    rw [whole, List.append_assoc] at h
    rcases split_units h with ⟨a, rest, rfl, ha, hrest⟩ | ⟨a, b, c, v, w, hu, hb, hv, hw, hx⟩
    case inr => exact absurd hx.symm (hfit a b c v w hu hb hv hw _ _ _ .here).1
    rcases split_units hrest with ⟨m, rest, rfl, hm, hrest⟩ | ⟨m, b, c, v, w, hu, hb, hv, hw, hx⟩
    case inr =>
      refine absurd ?_ (hfit (a ++ m) b c v w (by rw [hu]; simp) hb hv hw _ _ _ .here).2
      rw [List.flatMap_append, ha, hx, List.append_assoc]
    obtain ⟨ρ, rfl, rfl⟩ := ih hrest fun a' b c v w hu hb hv hw l m' r hhas => by
      have hfit' := hfit (a ++ m ++ a') b c v w (by rw [hu]; simp) hb hv hw _ _ _ hhas.later
      simpa [ha, hm] using hfit'
    exact ⟨.slice a m ρ, by simp [whole], by rw [map, ha, hm]⟩

end Sliced

end LatexPreview
