import Mathlib
import LatexPreview.Proofs.Convert.Growth
import LatexPreview.Proofs.Convert.LiftTrace
import LatexPreview.Proofs.Source.Bodies

/-!
# Rewording math

What stands in a span of math that is lifted just as it stands has no influence on the page: not
on how the text is cut into spans, and not on anything that is done to the text behind that.

* `Rewording` is a span of math with another body for it, `Revision` a text with such spans
* `Bit` is a letter or such a span in a traced text
* `exists_sliced_bits`: where all spans are lifted as they stand, no pass goes through one
* `liftPass_reworded`: one pass over both texts puts the same tokens in the same places
* `liftKinds_reworded`: in the end the same text is left
* `convertStripped_reworded`: so are the pages the same
-/

namespace LatexPreview

open Passage Pattern Traced

/-! ## Revisions -/

/-- The delimiters of the spans that are lifted. -/
def mathFrames : List Frame :=
  [("$$".toList, "$$".toList), ("\\[".toList, "\\]".toList), ("\\(".toList, "\\)".toList),
    ("$".toList, "$".toList)] ++ envFrames displayNames

/-- A span of math, and another body for it. -/
structure Rewording where
  frame : Frame
  old : Text
  new : Text
  isMath : frame ∈ mathFrames
  oldPlain : PlainBody old
  newPlain : PlainBody new

/-- The span with some body. -/
def Rewording.span (r : Rewording) (body : Text) : Text := r.frame.1 ++ body ++ r.frame.2

/-- A part of a text that is revised: it is kept, or is a span that gets another body. -/
inductive Stretch where
  | kept (s : Text)
  | reworded (r : Rewording)

/-- A text and what it becomes when spans get other bodies. -/
abbrev Revision := List Stretch

namespace Revision

/-- The text. -/
def old : Revision → Text
  | [] => []
  | .kept s :: v => s ++ old v
  | .reworded r :: v => r.span r.old ++ old v

/-- What it becomes. -/
def new : Revision → Text
  | [] => []
  | .kept s :: v => s ++ new v
  | .reworded r :: v => r.span r.new ++ new v

/-- The places of the spans that get other bodies, in a text that starts at some place. -/
def places : Nat → Revision → List (Nat × Nat)
  | _, [] => []
  | n, .kept s :: v => places (n + s.length) v
  | n, .reworded r :: v =>
    (n, (r.span r.old).length) :: places (n + (r.span r.old).length) v

end Revision

/-! ## Bits -/

/-- A letter of a traced text, or a span that stands in it as it stood in the text that is given. -/
inductive Bit where
  | letter (x : Char × Option Nat)
  | span (start : Nat) (r : Rewording)

namespace Bit

/-- The traced text with the bodies that are there. -/
def old : Bit → Traced
  | letter x => [x]
  | span n r => numbered n (r.span r.old)

/-- The text with marks for bodies. -/
def inner : Bit → Passage Rewording
  | letter x => [.char x.1]
  | span _ r => ofText r.frame.1 ++ .mention r :: ofText r.frame.2

/-- Letters that were not there. -/
def made (s : Text) : List Bit := s.map fun c => letter (c, none)

end Bit

/-- The bits of a revision of a text that starts at some place. -/
def Revision.bits : Nat → Revision → List Bit
  | _, [] => []
  | n, .kept s :: v => (numbered n s).map .letter ++ bits (n + s.length) v
  | n, .reworded r :: v => .span n r :: bits (n + (r.span r.old).length) v

/-- The traced text of some bits. -/
def tracedBits (bits : List Bit) : Traced := bits.flatMap Bit.old

/-- The text of some bits, with marks for bodies. -/
def passageOf (bits : List Bit) : Passage Rewording := bits.flatMap Bit.inner

theorem tracedBits_append (x y : List Bit) : tracedBits (x ++ y) = tracedBits x ++ tracedBits y :=
  List.flatMap_append

theorem passageOf_append (x y : List Bit) : passageOf (x ++ y) = passageOf x ++ passageOf y :=
  List.flatMap_append

theorem tracedBits_made (s : Text) : tracedBits (Bit.made s) = Traced.made s := by
  induction s with
  | nil => rfl
  | cons c s ih => exact congrArg ((c, none) :: ·) ih

theorem passageOf_letters (τ : Traced) : passageOf (τ.map .letter) = ofText τ.text := by
  induction τ with
  | nil => rfl
  | cons x τ ih => exact congrArg (.char x.1 :: ·) ih

theorem tracedBits_letters (τ : Traced) : tracedBits (τ.map .letter) = τ := by
  induction τ with
  | nil => rfl
  | cons x τ ih => exact congrArg (x :: ·) ih

theorem fill_passageOf_made (content : Rewording → Text) (s : Text) :
    fill content (passageOf (Bit.made s)) = s := by
  induction s with
  | nil => rfl
  | cons c s ih => exact congrArg (c :: ·) ih

theorem fill_inner_span (content : Rewording → Text) (n : Nat) (r : Rewording) :
    fill content (Bit.span n r).inner = r.span (content r) := by
  simp [Bit.inner, Rewording.span]

/-- The letters of the traced text are those of the passage with the old bodies. -/
theorem text_tracedBits (bits : List Bit) :
    (tracedBits bits).text = fill Rewording.old (passageOf bits) := by
  induction bits with
  | nil => rfl
  | cons b bits ih =>
    have hone : b.old.text = fill Rewording.old b.inner := by
      cases b with
      | letter x => rfl
      | span n r => rw [fill_inner_span, Bit.old, text_numbered]
    rw [tracedBits, passageOf, List.flatMap_cons, List.flatMap_cons, Traced.text_append, fill_append,
      hone]
    exact congrArg _ ih

theorem tracedBits_bits (n : Nat) (v : Revision) : tracedBits (v.bits n) = numbered n v.old := by
  induction v generalizing n with
  | nil => rfl
  | cons x v ih =>
    cases x with
    | kept s =>
      rw [Revision.bits, Revision.old, tracedBits_append, tracedBits_letters, ih, numbered_append]
    | reworded r =>
      rw [Revision.bits, Revision.old, numbered_append, ← ih]
      rfl

theorem fill_new_bits (n : Nat) (v : Revision) :
    fill Rewording.new (passageOf (v.bits n)) = v.new := by
  induction v generalizing n with
  | nil => rfl
  | cons x v ih =>
    cases x with
    | kept s =>
      rw [Revision.bits, Revision.new, passageOf_append, passageOf_letters, fill_append,
        fill_ofText, text_numbered, ih]
    | reworded r =>
      rw [Revision.bits, Revision.new, ← ih, passageOf, List.flatMap_cons, fill_append,
        fill_inner_span]
      rfl

theorem place_of_mem_bits {n m : Nat} {v : Revision} {r : Rewording}
    (h : Bit.span m r ∈ v.bits n) : (m, (r.span r.old).length) ∈ v.places n := by
  induction v generalizing n with
  | nil => exact absurd h (by simp [Revision.bits])
  | cons x v ih =>
    cases x with
    | kept s =>
      simp only [Revision.bits, List.mem_append, List.mem_map, reduceCtorEq, and_false,
        exists_false, false_or] at h
      exact ih h
    | reworded r' =>
      rcases List.mem_cons.1 h with heq | h
      · obtain ⟨rfl, rfl⟩ := Bit.span.inj heq
        exact List.mem_cons_self
      · exact List.mem_cons_of_mem _ (ih h)

/-! ## Bodies between delimiters -/

theorem framed_ofText {α : Type} {b : Option Char} {w : Text} {g : Passage α}
    (h : Framed (w.getLast?.or b) g) : Framed b (ofText w ++ g) := by
  induction w generalizing b with
  | nil => exact h
  | cons c w ih =>
    rw [← List.singleton_append, getLast?_append_or] at h
    exact ih h

theorem Rewording.edges (r : Rewording) :
    (∃ e ∈ bodyLeaders, r.frame.1.getLast? = some e) ∧
      ∃ d ∈ bodyFollowers, ∃ w, r.frame.2 = d :: w := by
  have hmath := r.isMath
  simp only [mathFrames, List.mem_append, List.mem_cons, List.not_mem_nil, or_false] at hmath
  rcases hmath with (h | h | h | h) | h
  · exact ⟨⟨'$', by decide, by rw [h]; rfl⟩, '$', by decide, ['$'], by rw [h]; rfl⟩
  · exact ⟨⟨'[', by decide, by rw [h]; rfl⟩, '\\', by decide, [']'], by rw [h]; rfl⟩
  · exact ⟨⟨'(', by decide, by rw [h]; rfl⟩, '\\', by decide, [')'], by rw [h]; rfl⟩
  · exact ⟨⟨'$', by decide, by rw [h]; rfl⟩, '$', by decide, [], by rw [h]; rfl⟩
  · obtain ⟨name, hname, -⟩ := exists_envFrame h
    have hopen : r.frame.1 = ("\\begin".toList ++ '{' :: name) ++ ['}'] := by
      rw [hname]
      exact (List.append_assoc _ _ _).symm
    exact ⟨⟨'}', by decide, by rw [hopen, List.getLast?_concat]⟩, '\\', by decide,
      "end".toList ++ braced name, by rw [hname]; rfl⟩

theorem Rewording.span_ne_nil (r : Rewording) (body : Text) : r.span body ≠ [] := by
  obtain ⟨-, d, -, w, hw⟩ := r.edges
  simp [span, hw]

theorem framed_passageOf (b : Option Char) (bits : List Bit) : Framed b (passageOf bits) := by
  induction bits generalizing b with
  | nil => trivial
  | cons x bits ih =>
    cases x with
    | letter x => exact ih (some x.1)
    | span n r =>
      obtain ⟨⟨e, he, hlast⟩, d, hd, w, hw⟩ := r.edges
      rw [passageOf, List.flatMap_cons, Bit.inner, List.append_assoc, List.cons_append]
      refine framed_ofText ⟨⟨e, he, by rw [hlast]; rfl⟩, ⟨d, hd, _, by rw [hw]; rfl⟩, ?_⟩
      exact framed_ofText (ih _)

theorem exists_numbered_span (n : Nat) (r : Rewording) :
    ∃ c τ, numbered n (r.span r.old) = (c, some n) :: τ := by
  obtain ⟨c, s, hs⟩ := List.exists_cons_of_ne_nil (r.span_ne_nil r.old)
  exact ⟨c, numbered (n + 1) s, by rw [hs, numbered]⟩

/-! ## One pass -/

section Pass

variable {p : Pattern} {bits : List Bit}

/-- In a text where no place occurs twice, a part that begins at a place stands where it does. -/
theorem eq_of_append_eq {l r l' r' : Traced} {c : Char} {n : Nat} {τ : Traced}
    (hnodup : (origins (l ++ (c, some n) :: τ ++ r)).Nodup)
    (h : l ++ (c, some n) :: τ ++ r = l' ++ (c, some n) :: τ ++ r') : l = l' := by
  have hfront : ∀ {l r : Traced}, (origins (l ++ (c, some n) :: τ ++ r)).Nodup →
      (c, some n) ∉ l := by
    intro l r hnodup hmem
    rw [List.append_assoc, origins_append] at hnodup
    exact List.disjoint_of_nodup_append hnodup (mem_origins hmem) (mem_origins List.mem_cons_self)
  rw [List.append_assoc, List.append_assoc] at h
  have hnodup' : (origins (l' ++ (c, some n) :: τ ++ r')).Nodup := by
    rw [List.append_assoc, ← h, ← List.append_assoc]
    exact hnodup
  rcases List.append_eq_append_iff.1 h with ⟨z, rfl, hz⟩ | ⟨z, rfl, hz⟩
  · cases z with
    | nil => simp
    | cons x z =>
      obtain ⟨rfl, -⟩ := List.cons.inj hz
      exact absurd (by simp) (hfront hnodup')
  · cases z with
    | nil => simp
    | cons x z =>
      obtain ⟨rfl, -⟩ := List.cons.inj hz
      exact absurd (by simp) (hfront hnodup)

/-- A pass that takes each span out as it stands, or leaves it as it stands, goes through none. -/
theorem exists_sliced_bits (hp : p.Consumes) (hnodup : (origins (tracedBits bits)).Nodup)
    (hspans : ∀ n r, Bit.span n r ∈ bits →
      numbered n (r.span r.old) ∈ (Traced.cut p (tracedBits bits)).slices ∨
        ∀ m ∈ (Traced.cut p (tracedBits bits)).slices, ∀ x ∈ numbered n (r.span r.old), x ∉ m) :
    ∃ ρ : Sliced Bit, ρ.whole = bits ∧ ρ.map tracedBits = Traced.cut p (tracedBits bits) := by
  refine Sliced.exists_units (Traced.whole_cut p _).symm fun x b y v w hbits hb hv hw l m r hhas => ?_
  have hwhole : tracedBits bits = tracedBits x ++ (v ++ w) ++ tracedBits y := by
    rw [hbits, tracedBits_append, ← hb, List.append_assoc]
    rfl
  cases b with
  | letter z =>
    have hlength : 1 = v.length + w.length := by
      rw [← List.length_append, ← hb]
      rfl
    have hv' := List.length_pos_iff.2 hv
    have hw' := List.length_pos_iff.2 hw
    omega
  | span n r' =>
    rw [Bit.old] at hb
    rcases hspans n r' (by rw [hbits]; simp) with hmem | hdisjoint
    · rw [hb] at hmem
      obtain ⟨l₀, r₀, hhas₀⟩ := Sliced.exists_has_of_mem hmem
      obtain ⟨c, τ, hτ⟩ := exists_numbered_span n r'
      have hsame : tracedBits x = l₀ := by
        have heq := hhas₀.whole_eq
        rw [Traced.whole_cut, hwhole, ← hb, hτ] at heq
        refine eq_of_append_eq ?_ heq
        rw [← hτ, hb, ← hwhole]
        exact hnodup
      rw [← hsame] at hhas₀
      exact hhas₀.fits hv hw hhas
    · have hne : m ≠ [] := by
        rintro rfl
        have hslice : ([] : Text) ∈ (p.cut (tracedBits bits).text).sliced.slices := by
          rw [← Traced.cut_map_text, Sliced.slices_map]
          exact List.mem_map.2 ⟨[], hhas.mem, rfl⟩
        exact hp.ne_nil_of_mem_slices hslice rfl
      refine hhas.fits_of_disjoint ((Traced.whole_cut p _).trans hwhole) hv hw ?_ hne
      rw [← hb]
      exact hdisjoint m hhas.mem

/-- Then the text with the new bodies is cut at the same places. -/
theorem sliced_cut_new {behind : Bool → Passage Rewording → Option (Passage Rewording)}
    (hp : Uniform p behind) {ρ : Sliced Bit} (hwhole : ρ.whole = bits)
    (hcut : ρ.map tracedBits = Traced.cut p (tracedBits bits)) :
    (p.cut (fill Rewording.new (passageOf bits))).sliced =
      ρ.map (fill Rewording.new ∘ passageOf) := by
  obtain ⟨σ, hσ, hslices⟩ := hp.exists_cut (framed_passageOf none bits)
  have hold : σ.map (fill Rewording.old) = (ρ.map passageOf).map (fill Rewording.old) :=
    calc σ.map (fill Rewording.old)
      _ = (p.cut (fill Rewording.old (passageOf bits))).sliced :=
        (hslices Rewording.old Rewording.oldPlain none Iff.rfl).symm
      _ = (ρ.map tracedBits).map text := by rw [← text_tracedBits, hcut, Traced.cut_map_text]
      _ = ρ.map (fill Rewording.old ∘ passageOf) := by
        rw [Sliced.map_map]
        exact congrArg (ρ.map ·) (funext text_tracedBits)
      _ = (ρ.map passageOf).map (fill Rewording.old) := (Sliced.map_map _ _ _).symm
  have hne : ∀ g : Passage Rewording, fill Rewording.old g = [] → g = [] := by
    intro g hg
    cases g with
    | nil => rfl
    | cons x g =>
      cases x with
      | char c => exact absurd hg (by simp)
      | mention r => exact absurd (List.append_eq_nil_iff.1 hg).1 r.oldPlain.nonempty
  have hsame : σ = ρ.map passageOf := by
    refine Sliced.eq_of_map_eq (fill_append _) hne ?_ hold
    rw [hσ, Sliced.whole_map passageOf_append, hwhole]
  rw [← Sliced.map_map, ← hsame]
  exact hslices Rewording.new Rewording.newPlain none Iff.rfl

/-- Is a span taken out by a pass, or are all of its letters left? -/
def TakenOrLeft (kind : Pattern × MathPlace) (bits : List Bit) (d : Draft) (n : Nat)
    (r : Rewording) : Prop :=
  (n, (r.span r.old).length) ∈
      ((liftKind kind (tracedBits bits)).run d).1.2.filterMap place? ∨
    ∀ i ∈ List.range' n (r.span r.old).length,
      i ∈ origins ((liftKind kind (tracedBits bits)).run d).1.1

theorem nodup_liftKind (kind : Pattern × MathPlace) {τ : Traced} (d : Draft)
    (hnodup : (origins τ).Nodup) : (origins ((liftKind kind τ).run d).1.1 ++
      origins ((liftKind kind τ).run d).1.2.flatten).Nodup :=
  (origins_liftKind kind τ d).nodup_iff.1 hnodup

theorem liftKind_slices (kind : Pattern × MathPlace) (τ : Traced) (d : Draft) :
    ((liftKind kind τ).run d).1.2 = (Traced.cut kind.1 τ).slices := by
  rw [liftKind_run]

theorem TakenOrLeft.slices {kind : Pattern × MathPlace} {d : Draft} {n : Nat} {r : Rewording}
    (h : TakenOrLeft kind bits d n r) (hr : Bit.span n r ∈ bits)
    (hnodup : (origins (tracedBits bits)).Nodup) :
    numbered n (r.span r.old) ∈ (Traced.cut kind.1 (tracedBits bits)).slices ∨
      ∀ m ∈ (Traced.cut kind.1 (tracedBits bits)).slices,
        ∀ x ∈ numbered n (r.span r.old), x ∉ m := by
  have hsnd := map_snd_numbered n (r.span r.old)
  rcases h with htaken | hleft
  · obtain ⟨μ, hμ, hplace⟩ := List.mem_filterMap.1 htaken
    rw [liftKind_slices] at hμ
    obtain ⟨l, s, hhas⟩ := Sliced.exists_has_of_mem hμ
    have hsame : μ = numbered n (r.span r.old) := by
      refine eq_of_map_snd_eq hnodup (map_snd_of_place? hplace) hsnd (fun x hx => ?_)
        fun x hx => List.mem_flatMap.2 ⟨_, hr, hx⟩
      rw [← Traced.whole_cut kind.1 (tracedBits bits), hhas.whole_eq]
      simp [hx]
    exact .inl (hsame ▸ hμ)
  · refine .inr fun m hm x hx hxm => ?_
    obtain ⟨c, o⟩ := x
    obtain ⟨i, hi, rfl⟩ := List.mem_map.1 (hsnd ▸ List.mem_map_of_mem (f := Prod.snd) hx)
    refine List.disjoint_of_nodup_append (nodup_liftKind kind d hnodup) (hleft i hi) ?_
    rw [liftKind_slices]
    exact origins_flatten.2 ⟨m, hm, mem_origins hxm⟩

/-- What a pass does with the text, it does with the text that has the new bodies. -/
theorem liftPass_reworded {kind : Pattern × MathPlace} (hkind : kind ∈ mathSpanKinds)
    {d e : Draft} (hde : d.Alike e) (hnodup : (origins (tracedBits bits)).Nodup)
    (hspans : ∀ n r, Bit.span n r ∈ bits → TakenOrLeft kind bits d n r) :
    ∃ left : List Bit, tracedBits left = ((liftKind kind (tracedBits bits)).run d).1.1 ∧
      fill Rewording.new (passageOf left) =
        ((liftPass kind (fill Rewording.new (passageOf bits))).run e).1 ∧
      ((liftKind kind (tracedBits bits)).run d).2.Alike
        ((liftPass kind (fill Rewording.new (passageOf bits))).run e).2 ∧
      ∀ n r, Bit.span n r ∈ left → Bit.span n r ∈ bits := by
  obtain ⟨behind, huniform⟩ := uniform_of_mem_mathSpanKinds (α := Rewording) hkind
  obtain ⟨ρ, hwhole, hcut⟩ := exists_sliced_bits huniform.consumes hnodup fun n r hr =>
    (hspans n r hr).slices hr hnodup
  have hnew := sliced_cut_new huniform hwhole hcut
  have hlength : (kind.1.cut (tracedBits bits).text).sliced.slices.length =
      (kind.1.cut (fill Rewording.new (passageOf bits))).sliced.slices.length := by
    rw [hnew, ← Traced.cut_map_text, ← hcut]
    simp [Sliced.slices_map]
  have hpass : (liftPass kind (fill Rewording.new (passageOf bits))).run e = _ :=
    replaceM_liftSpan kind.2 (kind.1.cut (fill Rewording.new (passageOf bits))) e
  obtain ⟨htokens, halike⟩ := agrees_storeSpans kind.2 hlength d e hde
  rw [liftKind_run, hpass]
  dsimp only
  rw [← htokens]
  generalize ((storeSpans kind.2 (kind.1.cut (tracedBits bits).text).sliced.slices).run d).1 =
    tokens
  refine ⟨ρ.refill (tokens.map Bit.made), ?_, ?_, halike, fun n r hr => ?_⟩
  · rw [← hcut, ← Sliced.refill_map tracedBits_append, List.map_map]
    simp [Function.comp_def, tracedBits_made]
  · have hjoin : ∀ x y, (fill Rewording.new ∘ passageOf) (x ++ y) =
        (fill Rewording.new ∘ passageOf) x ++ (fill Rewording.new ∘ passageOf) y := by
      intro x y
      simp [passageOf_append]
    have hrefill := Sliced.refill_map hjoin ρ (tokens.map Bit.made)
    rw [List.map_map] at hrefill
    rw [hnew, ← Function.comp_apply (f := fill Rewording.new), ← hrefill]
    simp [Function.comp_def, fill_passageOf_made]
  · rcases Sliced.mem_refill hr with hmem | hmem
    · rwa [hwhole] at hmem
    · simp [Bit.made] at hmem

end Pass

/-! ## All passes -/

theorem passageOf_of_no_span {bits : List Bit} (h : ∀ n r, Bit.span n r ∉ bits) :
    mentions (passageOf bits) = [] := by
  induction bits with
  | nil => rfl
  | cons b bits ih =>
    have hlater := ih fun n r hr => h n r (by simp [hr])
    cases b with
    | letter x => exact hlater
    | span n r => exact absurd (by simp) (h n r)

/-- A span that a pass has left is none of those that it has taken. -/
theorem not_taken_of_left {kind : Pattern × MathPlace} {bits left : List Bit} {d : Draft}
    (hnodup : (origins (tracedBits bits)).Nodup)
    (htraced : tracedBits left = ((liftKind kind (tracedBits bits)).run d).1.1) {n : Nat}
    {r : Rewording} (hr : Bit.span n r ∈ left) : (n, (r.span r.old).length) ∉
      ((liftKind kind (tracedBits bits)).run d).1.2.filterMap place? := by
  intro htaken
  obtain ⟨μ, hμ, hplace⟩ := List.mem_filterMap.1 htaken
  obtain ⟨c, τ, hτ⟩ := exists_numbered_span n r
  have hstays : n ∈ origins (tracedBits left) :=
    mem_origins (c := c) (List.mem_flatMap.2 ⟨_, hr, by rw [Bit.old, hτ]; simp⟩)
  have hgone : n ∈ origins μ := by
    have hpos := List.length_pos_iff.2 (r.span_ne_nil r.old)
    rw [origins_eq_of_map_snd (map_snd_of_place? hplace)]
    simp [List.mem_range'_1, hpos]
  rw [htraced] at hstays
  exact List.disjoint_of_nodup_append (nodup_liftKind kind d hnodup) hstays
    (origins_flatten.2 ⟨μ, hμ, hgone⟩)

/-- Lifting puts the same tokens in the same places, and leaves the same text in the end. -/
theorem liftKinds_reworded {kinds : List (Pattern × MathPlace)}
    (hkinds : ∀ kind ∈ kinds, kind ∈ mathSpanKinds) {bits : List Bit} {d e : Draft}
    (hde : d.Alike e) (hnodup : (origins (tracedBits bits)).Nodup)
    (hspans : ∀ n r, Bit.span n r ∈ bits → (n, (r.span r.old).length) ∈
      ((liftKinds kinds (tracedBits bits)).run d).1.2.filterMap place?) :
    let lifted := (kinds.foldlM (fun s kind => liftPass kind s)
      (fill Rewording.new (passageOf bits)) : Drafting Text).run e
    ((liftKinds kinds (tracedBits bits)).run d).1.1.text = lifted.1 ∧
      ((liftKinds kinds (tracedBits bits)).run d).2.Alike lifted.2 := by
  induction kinds generalizing bits d e with
  | nil =>
    refine ⟨?_, hde⟩
    have hnone : mentions (passageOf bits) = [] :=
      passageOf_of_no_span fun n r hr => absurd (hspans n r hr) (by
        rw [show ((liftKinds [] (tracedBits bits)).run d).1.2 = [] from rfl]
        simp)
    exact (text_tracedBits bits).trans (fill_eq_of_mentions hnone)
  | cons kind kinds ih =>
    have hall : ((liftKinds (kind :: kinds) (tracedBits bits)).run d).1.2 =
        ((liftKind kind (tracedBits bits)).run d).1.2 ++
          ((liftKinds kinds ((liftKind kind (tracedBits bits)).run d).1.1).run
            ((liftKind kind (tracedBits bits)).run d).2).1.2 := rfl
    have hplaces : ∀ n r, Bit.span n r ∈ bits → (n, (r.span r.old).length) ∈
        ((liftKind kind (tracedBits bits)).run d).1.2.filterMap place? ∨
        (n, (r.span r.old).length) ∈ ((liftKinds kinds
          ((liftKind kind (tracedBits bits)).run d).1.1).run
            ((liftKind kind (tracedBits bits)).run d).2).1.2.filterMap place? := by
      intro n r hr
      have hplace := hspans n r hr
      rw [hall, List.filterMap_append] at hplace
      exact List.mem_append.1 hplace
    obtain ⟨left, htraced, htext, halike, hsub⟩ :=
      liftPass_reworded (hkinds kind (by simp)) hde hnodup fun n r hr => by
        refine (hplaces n r hr).imp id fun hlater i hi => ?_
        obtain ⟨μ, hμ, hplace⟩ := List.mem_filterMap.1 hlater
        rw [← origins_eq_of_map_snd (map_snd_of_place? hplace)] at hi
        exact origins_liftKinds (origins_flatten.2 ⟨μ, hμ, hi⟩)
    have hnodup' := nodup_liftKind kind d hnodup
    have hleft : ∀ n r, Bit.span n r ∈ left → (n, (r.span r.old).length) ∉
        ((liftKind kind (tracedBits bits)).run d).1.2.filterMap place? :=
      fun n r hr => not_taken_of_left hnodup htraced hr
    rw [← htraced] at hnodup' hplaces
    have hlater := ih (fun k hk => hkinds k (by simp [hk])) halike hnodup'.of_append_left
      fun n r hr => (hplaces n r (hsub n r hr)).resolve_left (hleft n r hr)
    rw [htraced, htext] at hlater
    exact hlater

/-! ## Pages -/

/-- What is left to do when all stages have been run: math whose token has been lost follows at
the end. -/
def finish (s : Text) : Drafting Conversion := do
  let d ← get
  let html := d.header ++ s
  pure ⟨html ++ lostTokens d.math html, d.math.entries⟩

/-- Converts a document that has no declarations any more. -/
def convertStripped (s : Text) : Conversion :=
  (((Stage.all.drop 1).foldlM (fun s stage => stage.run s) s >>= finish : Drafting Conversion).run
    .fresh).1

/-- A conversion takes the declarations away and goes on from there. -/
theorem convert_eq_convertStripped (latex : Text) :
    convert latex = convertStripped (stripDeclarations latex) := by
  have hrest : runStages latex =
      (Stage.all.drop 1).foldlM (fun s stage => stage.run s) (stripDeclarations latex) := by
    rw [runStages, show Stage.all = .preamble :: Stage.all.drop 1 from rfl, List.foldlM_cons]
    rw [Stage.run, pure_bind]
    rfl
  rw [convert, convertStripped, convertOn, hrest]
  rfl

/-- What is done behind the lifting of math. -/
def finishLifted (s : Text) : Drafting Conversion :=
  (Stage.all.drop 2).foldlM (fun s stage => stage.run s) s >>= finish

theorem convertStripped_eq (s : Text) : convertStripped s =
    ((finishLifted ((liftMath s).run .fresh).1).run ((liftMath s).run .fresh).2).1 := by
  have hmath : (Stage.all.drop 1).foldlM (fun s stage => stage.run s) s =
      liftMath s >>= fun s => (Stage.all.drop 2).foldlM (fun s stage => stage.run s) s := by
    rw [show Stage.all.drop 1 = .math :: Stage.all.drop 2 from rfl, List.foldlM_cons]
    rfl
  rw [convertStripped, hmath, bind_assoc]
  change ((liftMath s >>= finishLifted).run .fresh).1 = _
  generalize liftMath s = lift, finishLifted = later
  rfl

/-- Pages are finished in the same way whatever the math is, and its tokens are the same. -/
theorem finishLifted_alike (s : Text) {d e : Draft} (h : d.Alike e) :
    ((finishLifted s).run d).1.html = ((finishLifted s).run e).1.html ∧
      ((finishLifted s).run d).1.math.map Prod.fst =
        ((finishLifted s).run e).1.math.map Prod.fst := by
  have hkeys : ∀ t : PlaceholderTable, t.entries.map Prod.fst = t.tokens := by
    intro t
    rw [PlaceholderTable.entries, List.map_fst_zip]
    simp [PlaceholderTable.tokens, PlaceholderTable.size]
  have hstages : Drafting.Agrees ((Stage.all.drop 2).foldlM (fun s stage => stage.run s) s)
      ((Stage.all.drop 2).foldlM (fun s stage => stage.run s) s) :=
    Drafting.agrees_foldlM (fun stage hstage =>
      stage.agrees (by rintro rfl; exact absurd hstage (by decide))) s
  rw [finishLifted]
  generalize (Stage.all.drop 2).foldlM (fun s stage => stage.run s) s = stages at hstages ⊢
  obtain ⟨htext, hdrafts⟩ := hstages d e h
  have hrun : ∀ d : Draft, ((stages >>= finish).run d).1 =
      let html := (stages.run d).2.header ++ (stages.run d).1
      ⟨html ++ lostTokens (stages.run d).2.math html, (stages.run d).2.math.entries⟩ :=
    fun _ => rfl
  rw [hrun, hrun]
  dsimp only
  rw [hkeys, hkeys, lostTokens, lostTokens, hdrafts.tokens, hdrafts.header, htext]
  exact ⟨rfl, rfl⟩

/-- Bodies of spans that are lifted just as they stand have no influence on the page. -/
theorem convertStripped_reworded (v : Revision)
    (hlifted : ∀ place ∈ v.places 0, place ∈ liftedPlaces v.old) :
    (convertStripped v.old).html = (convertStripped v.new).html ∧
      (convertStripped v.old).math.map Prod.fst = (convertStripped v.new).math.map Prod.fst := by
  have hnodup : (origins (tracedBits (v.bits 0))).Nodup := by
    rw [tracedBits_bits, origins_numbered]
    exact List.nodup_range'
  have hlift := liftKinds_reworded (fun _ h => h) (.refl .fresh) hnodup fun n r hr => by
    rw [tracedBits_bits]
    exact hlifted _ (place_of_mem_bits hr)
  dsimp only at hlift
  rw [tracedBits_bits, fill_new_bits, ← liftMath_eq] at hlift
  have hold := liftKinds_text mathSpanKinds (numbered 0 v.old) .fresh
  rw [text_numbered, ← liftMath_eq] at hold
  obtain ⟨htext, halike⟩ := hlift
  rw [convertStripped_eq, convertStripped_eq, hold]
  dsimp only
  rw [htext]
  exact finishLifted_alike _ halike

/-- A formula in a line and a displayed one, with commands of the prose in their new bodies. -/
def formulasReworded : Revision :=
  [.kept ['a', ' '],
    .reworded ⟨(['$'], ['$']), ['x'], "\\textbf\x7by\x7d".toList, by decide, by decide,
      by decide⟩,
    .kept [' ', '$'],
    .reworded ⟨(['\\', '['], ['\\', ']']), ['z'], "\\item".toList, by decide,
      by decide, by decide⟩]

theorem convertStripped_formulasReworded :
    (∀ place ∈ formulasReworded.places 0, place ∈ liftedPlaces formulasReworded.old) ∧
      (convertStripped formulasReworded.old).html = (convertStripped formulasReworded.new).html ∧
      (convertStripped formulasReworded.old).math.map Prod.fst =
        (convertStripped formulasReworded.new).math.map Prod.fst :=
  have hlifted : ∀ place ∈ formulasReworded.places 0,
      place ∈ liftedPlaces formulasReworded.old := by decide
  ⟨hlifted, convertStripped_reworded formulasReworded hlifted⟩

end LatexPreview
