import Mathlib
import LatexPreview.Proofs.Convert.LiftTrace
import LatexPreview.Proofs.Convert.LiftedMath
import LatexPreview.Proofs.Pattern.Trim
import LatexPreview.Proofs.Source.Spans

/-!
# Math that is lifted out of the parts of a text

What is lifted out of a text is what is lifted out of its parts, one behind the other, if no span
reaches from one part into the next one.  Parts in which no span starts are left as they are, and
change nothing about what is lifted out of the other parts.

* `liftFrom` lifts the math of a kind out of a text that stands behind a character
* `liftFrom_append`: math of two parts
* `LiftsApart`: no math in a text depends on what follows it
* `LiftsApart.around`: a part without math in between two others
* `liftAll_blanks`: blanks around a text
-/

namespace LatexPreview

open Pattern Text

/-! ## Lifting behind a character -/

/-- Lifts the math of one kind out of a text that stands behind a character. -/
def liftFrom (kind : Pattern × MathPlace) (b : Option Char) (s : Text) : Drafting Text := do
  let tokens ← storeSpans kind.2 (kind.1.slicedFrom b s).slices
  pure ((kind.1.slicedFrom b s).refill tokens)

/-- Lifts the math of some kinds, one kind after the other. -/
def liftAll (kinds : List (Pattern × MathPlace)) (s : Text) : Drafting Text :=
  kinds.foldlM (fun s kind => liftPass kind s) s

section Runs

variable {kind : Pattern × MathPlace} {kinds : List (Pattern × MathPlace)} {b b' : Option Char}
  {x s : Text} {d : Draft}

theorem liftFrom_run : (liftFrom kind b s).run d =
    ((kind.1.slicedFrom b s).refill ((storeSpans kind.2 (kind.1.slicedFrom b s).slices).run d).1,
      ((storeSpans kind.2 (kind.1.slicedFrom b s).slices).run d).2) := rfl

theorem liftPass_run : (liftPass kind s).run d = (liftFrom kind none s).run d :=
  replaceM_liftSpan kind.2 (kind.1.cut s) d

theorem liftAll_cons_run : (liftAll (kind :: kinds) s).run d =
    (liftAll kinds ((liftPass kind s).run d).1).run ((liftPass kind s).run d).2 := rfl

theorem storeSpans_append_run (place : MathPlace) (l m : List Text) :
    (storeSpans place (l ++ m)).run d =
      (((storeSpans place l).run d).1 ++ ((storeSpans place m).run ((storeSpans place l).run d).2).1,
        ((storeSpans place m).run ((storeSpans place l).run d).2).2) := by
  induction l generalizing d with
  | nil => rfl
  | cons span l ih =>
    have hrun : ∀ l, (storeSpans place (span :: l)).run d =
        (((liftSpan place span).run d).1 ::
          ((storeSpans place l).run ((liftSpan place span).run d).2).1,
          ((storeSpans place l).run ((liftSpan place span).run d).2).2) := by
      intro l
      rw [storeSpans, List.mapM_cons]
      rfl
    rw [List.cons_append, hrun, hrun, ih]
    rfl

/-- Math of two parts, if the first one is cut apart. -/
theorem liftFrom_append (h : kind.1.Apart b x) (s : Text) (d : Draft) :
    (liftFrom kind b (x ++ s)).run d =
      (((liftFrom kind b x).run d).1 ++
        ((liftFrom kind (x.getLast?.or b) s).run ((liftFrom kind b x).run d).2).1,
        ((liftFrom kind (x.getLast?.or b) s).run ((liftFrom kind b x).run d).2).2) := by
  have hlength : ((storeSpans kind.2 (kind.1.slicedFrom b x).slices).run d).1.length =
      (kind.1.slicedFrom b x).slices.length := length_storeSpans _ _ _
  rw [liftFrom_run, h s, Sliced.slices_append, storeSpans_append_run]
  exact congrArg (·, _) (Sliced.refill_append _ hlength _)

/-- A part without math is left as it is. -/
theorem liftFrom_skips (hp : kind.1.Consumes) (h : kind.1.Skips b x s) (d : Draft) :
    (liftFrom kind b (x ++ s)).run d =
      (x ++ ((liftFrom kind (x.getLast?.or b) s).run d).1,
        ((liftFrom kind (x.getLast?.or b) s).run d).2) := by
  rw [liftFrom_run, slicedFrom_skips hp h, Sliced.slices_prepend, Sliced.refill_prepend]
  rfl

theorem liftFrom_congr (hp : kind.1.Consumes) (h : kind.1.EdgesAgree b b') :
    liftFrom kind b s = liftFrom kind b' s := by
  rw [liftFrom, slicedFrom_congr hp h, liftFrom]

/-! ## What is stored -/

theorem contents_storeSpans (place : MathPlace) (l : List Text) (d : Draft) :
    ((storeSpans place l).run d).2.math.contents = d.math.contents ++ l := by
  induction l generalizing d with
  | nil => exact (List.append_nil _).symm
  | cons span l ih =>
    have hrun : ((storeSpans place (span :: l)).run d).2 =
        ((storeSpans place l).run ((liftSpan place span).run d).2).2 := by
      rw [storeSpans, List.mapM_cons]
      rfl
    rw [hrun, ih, liftSpan_math]
    simp

theorem contents_liftFrom (kind : Pattern × MathPlace) (b : Option Char) (s : Text) (d : Draft) :
    ((liftFrom kind b s).run d).2.math.contents =
      d.math.contents ++ (kind.1.slicedFrom b s).slices := contents_storeSpans _ _ _

theorem exists_found_of_mem_slices {p : Pattern} {m : Text}
    (h : m ∈ (p.slicedFrom none s).slices) : ∃ hit, p.Found hit ∧ hit.matched = m := by
  have hcut : ∀ {s : Text} {hits : List Hit} {tail : Text}, p.CutsInto s hits tail →
      m ∈ (Cut.mk hits tail).sliced.slices → ∃ hit, p.Found hit ∧ hit.matched = m := by
    intro s hits tail hcuts hm
    induction hcuts with
    | tail s => exact absurd hm (by simp [Cut.sliced, Sliced.slices])
    | hit found later ih =>
      rcases List.mem_cons.1 hm with rfl | hm
      · exact ⟨_, found, rfl⟩
      · exact ih hm
  exact hcut (p.cut_cutsInto s) h

/-- What is stored when the math of some kinds is lifted is found by their patterns. -/
theorem exists_contents_liftAll {P : Text → Prop}
    (h : ∀ kind ∈ kinds, ∀ hit, kind.1.Found hit → P hit.matched) (s : Text) (d : Draft) :
    ∃ l, ((liftAll kinds s).run d).2.math.contents = d.math.contents ++ l ∧ ∀ m ∈ l, P m := by
  induction kinds generalizing s d with
  | nil => exact ⟨[], (List.append_nil _).symm, by simp⟩
  | cons kind kinds ih =>
    obtain ⟨l, hl, hP⟩ := ih (fun kind hkind => h kind (by simp [hkind]))
      ((liftPass kind s).run d).1 ((liftPass kind s).run d).2
    refine ⟨(kind.1.slicedFrom none s).slices ++ l, ?_, fun m hm => ?_⟩
    · rw [liftAll_cons_run, hl, liftPass_run, contents_liftFrom, List.append_assoc]
    · rcases List.mem_append.1 hm with hm | hm
      · obtain ⟨hit, hfound, rfl⟩ := exists_found_of_mem_slices hm
        exact h kind (by simp) hit hfound
      · exact hP m hm

end Runs

/-! ## Kinds of spans -/

/-- The pattern reads only as far as a delimiter, and of what stands in front of it only whether
that is a backslash. -/
structure Delimited (p : Pattern) : Prop where
  opens : ∃ c ∈ mathDelimiters, p.Opens c
  edges : ∀ b b', b ≠ some '\\' → b' ≠ some '\\' → p.EdgesAgree b b'
  blanks : ∀ (b : Option Char) (s t : Text), (∀ c ∈ t, isBlank c = true) →
    (p.at? b (s ++ t)).map (·.rest) = (p.at? b s).map fun stop => stop.rest ++ t

section Blanks

variable {w s t : Text}

/-- What stands behind a span does not depend on blanks at the end of the text. -/
theorem behindFrame_blanks {frames : List Frame}
    (hframes : ∀ f ∈ frames, f.2 ≠ [] ∧ ∀ c ∈ f.1 ++ f.2, c ∉ t) :
    behindFrame frames (s ++ t) = (behindFrame frames s).map (· ++ t) := by
  induction frames with
  | nil => rfl
  | cons f frames ih =>
    obtain ⟨hne, hf⟩ := hframes f (by simp)
    have hfirst : ((dropFront? f.1 (s ++ t)).bind fun r => (Text.find? f.2 r).map Prod.snd) =
        ((dropFront? f.1 s).bind fun r => (Text.find? f.2 r).map Prod.snd).map (· ++ t) := by
      rw [dropFront?_blanks fun c hc => hf c (by simp [hc])]
      cases dropFront? f.1 s with
      | none => rfl
      | some r =>
        show (Text.find? f.2 (r ++ t)).map Prod.snd = ((Text.find? f.2 r).map Prod.snd).map (· ++ t)
        rw [find?_blanks hne fun c hc => hf c (by simp [hc])]
        cases Text.find? f.2 r <;> rfl
    have hlater := ih fun g hg => hframes g (by simp [hg])
    rw [behindFrame, List.findSome?_cons, hfirst, behindFrame, List.findSome?_cons]
    cases (dropFront? f.1 s).bind fun r => (Text.find? f.2 r).map Prod.snd with
    | none => exact hlater
    | some r => rfl

theorem behindDollars_blanks (ok : Char → Bool) (b : Option Char) (ht : '$' ∉ t) :
    behindDollars ok b (s ++ t) = (behindDollars ok b s).map (· ++ t) := by
  have hdollar : ∀ c ∈ ['$'], c ∉ t := fun c hc => List.mem_singleton.1 hc ▸ ht
  unfold behindDollars
  split
  · rfl
  · rw [dropFront?_blanks hdollar]
    cases dropFront? ['$'] s with
    | none => rfl
    | some r =>
      simp only [Option.map_some, Option.bind_some]
      rw [find?_blanks (by simp) hdollar]
      cases Text.find? ['$'] r with
      | none => rfl
      | some found =>
        simp only [Option.map_some, Option.bind_some]
        split <;> rfl

end Blanks

theorem edgesAgree_nameAmong (b b' : Option Char) (names : List Text) :
    (nameAmong names).EdgesAgree b b' := by
  induction names with
  | nil => trivial
  | cons n names ih =>
    cases names with
    | nil => exact edgesAgree_lit n
    | cons m names => exact ⟨edgesAgree_lit n, ih⟩

/-- The patterns of math are of this kind. -/
theorem delimited_mathSpanKinds {kind : Pattern × MathPlace} (h : kind ∈ mathSpanKinds) :
    Delimited kind.1 := by
  have hframes : ∀ {p : Pattern} {frames : List Frame}, p.Spans frames →
      (frames.all fun f => f.2 != [] && (f.1 ++ f.2).all fun c => !isBlank c) = true →
      ∀ (b : Option Char) (s t : Text), (∀ c ∈ t, isBlank c = true) →
        (p.at? b (s ++ t)).map (·.rest) = (p.at? b s).map fun stop => stop.rest ++ t := by
    intro p frames hp hall b s t ht
    rw [hp, behindFrame_blanks, ← hp b, Option.map_map]
    · rfl
    · intro f hf
      have hf := List.all_eq_true.1 hall f hf
      simp only [Bool.and_eq_true, bne_iff_ne, ne_eq, List.all_eq_true, Bool.not_eq_true'] at hf
      exact ⟨hf.1, fun c hc hmem => absurd (ht c hmem) (by simp [hf.2 c hc])⟩
  obtain ⟨c, hc, hopens, -⟩ := delimited_of_mem_mathSpanKinds h
  simp only [mathSpanKinds, List.mem_cons, List.not_mem_nil, or_false] at h
  rcases h with rfl | rfl | rfl | rfl | rfl
  · exact ⟨⟨c, hc, hopens⟩, fun _ _ _ _ => ⟨⟨edgesAgree_lit _, trivial⟩, edgesAgree_lit _⟩,
      hframes spans_displayDollars (by decide)⟩
  · exact ⟨⟨c, hc, hopens⟩, fun _ _ _ _ => ⟨⟨edgesAgree_lit _, trivial⟩, edgesAgree_lit _⟩,
      hframes spans_displayBrackets (by decide)⟩
  · refine ⟨⟨c, hc, hopens⟩, fun _ _ _ _ => ⟨⟨⟨⟨⟨⟨⟨⟨edgesAgree_lit _, trivial⟩,
      edgesAgree_nameAmong _ _ _, trivial, trivial⟩, trivial⟩, trivial⟩, edgesAgree_lit _⟩, trivial⟩,
      trivial⟩, trivial⟩, hframes (spans_mathEnvironment (by simp)) (by decide)⟩
  · exact ⟨⟨c, hc, hopens⟩, fun _ _ _ _ => ⟨⟨edgesAgree_lit _, trivial⟩, edgesAgree_lit _⟩,
      hframes spans_inlineParens (by decide)⟩
  · refine ⟨⟨c, hc, hopens⟩, fun b b' hb hb' => ?_, fun b s t ht => ?_⟩
    · have hedge : bareDollar.EdgesAgree b b' := 
        ⟨fun _ => (bne_iff_ne.2 hb).trans (bne_iff_ne.2 hb').symm, trivial⟩
      exact ⟨⟨hedge, trivial, trivial⟩, hedge⟩
    · have hdollar : '$' ∉ t := fun hmem => absurd (ht _ hmem) (by decide)
      rw [at?_inlineDollars, behindDollars_blanks _ _ hdollar, ← at?_inlineDollars, Option.map_map]
      rfl

/-! ## Blanks around a text -/

namespace Delimited

variable {p : Pattern} (hp : Delimited p)

include hp

theorem trims : p.Trims := by
  have hdelimiters : ∀ c ∈ mathDelimiters, isBlank c = false := by
    simp [mathDelimiters, isBlank]
  obtain ⟨c, hc, hopens⟩ := hp.opens
  exact ⟨⟨c, hdelimiters c hc, hopens⟩, hp.blanks⟩

theorem consumes : p.Consumes := hp.trims.consumes

end Delimited

section Trim

variable {kinds : List (Pattern × MathPlace)}

/-- Blanks around a text are left as they are when math is lifted. -/
theorem liftAll_blanks (hkinds : ∀ kind ∈ kinds, Delimited kind.1) {l t : Text}
    (hl : ∀ c ∈ l, isBlank c = true) (ht : ∀ c ∈ t, isBlank c = true) (s : Text) (d : Draft) :
    (liftAll kinds (l ++ (s ++ t))).run d =
      (l ++ (((liftAll kinds s).run d).1 ++ t), ((liftAll kinds s).run d).2) := by
  induction kinds generalizing s d with
  | nil => rfl
  | cons kind kinds ih =>
    have hkind := hkinds kind (by simp)
    have hedge : kind.1.EdgesAgree (l.getLast?.or none) none := by
      refine hkind.edges _ _ (fun hlast => ?_) (by simp)
      rw [Option.or_none] at hlast
      exact absurd (hl _ (List.mem_of_getLast? hlast)) (by decide)
    have hlength := length_storeSpans kind.2 (kind.1.slicedFrom none s).slices d
    have hback : (liftFrom kind none (s ++ t)).run d =
        (((liftFrom kind none s).run d).1 ++ t, ((liftFrom kind none s).run d).2) := by
      have hrefill := Sliced.refill_append (.tail t) hlength []
      rw [List.append_nil] at hrefill
      rw [liftFrom_run, hkind.trims.slicedFrom_blanks ht, Sliced.slices_append]
      simp only [Sliced.slices, List.append_nil]
      exact congrArg (·, _) hrefill
    have hone : (liftPass kind (l ++ (s ++ t))).run d =
        (l ++ (((liftPass kind s).run d).1 ++ t), ((liftPass kind s).run d).2) := by
      rw [liftPass_run, liftFrom_skips hkind.consumes (hkind.trims.skips_blanks hl none _),
        liftFrom_congr hkind.consumes hedge, hback, liftPass_run]
    rw [liftAll_cons_run, hone, ih fun kind hkind => hkinds kind (by simp [hkind])]
    rfl

/-- What is lifted out of a text is lifted out of it when it has been trimmed. -/
theorem liftAll_trim (hkinds : ∀ kind ∈ kinds, Delimited kind.1) (s : Text) (d : Draft) :
    ∃ l t, ((liftAll kinds s).run d).1 = l ++ (((liftAll kinds s.trim).run d).1 ++ t) ∧
      ((liftAll kinds s).run d).2 = ((liftAll kinds s.trim).run d).2 ∧
      (∀ c ∈ l, isBlank c = true) ∧ ∀ c ∈ t, isBlank c = true := by
  obtain ⟨l, t, hs, hl, ht, -⟩ := exists_trim s
  have hrun := liftAll_blanks hkinds hl ht s.trim d
  rw [← hs] at hrun
  exact ⟨l, t, by rw [hrun], by rw [hrun], hl, ht⟩

end Trim

/-! ## Parts without math -/

/-- No math in the text depends on what follows it, and no backslash at its end has to do with what
follows. -/
def LiftsApart : List (Pattern × MathPlace) → Text → Prop
  | [], _ => True
  | kind :: kinds, x => kind.1.Apart none x ∧ x.getLast? ≠ some '\\' ∧
    ∀ d, LiftsApart kinds ((liftPass kind x).run d).1

section Around

variable {kind : Pattern × MathPlace} {kinds : List (Pattern × MathPlace)} {x y : Text} {c : Char}

/-- Math of one kind behind a text that is lifted apart. -/
theorem LiftsApart.liftPass_append (h : LiftsApart (kind :: kinds) x) (hkind : Delimited kind.1)
    (s : Text) (d : Draft) : (liftPass kind (x ++ s)).run d =
      (((liftPass kind x).run d).1 ++ ((liftPass kind s).run ((liftPass kind x).run d).2).1,
        ((liftPass kind s).run ((liftPass kind x).run d).2).2) := by
  have hedge : kind.1.EdgesAgree (x.getLast?.or none) none :=
    hkind.edges _ _ (by rw [Option.or_none]; exact h.2.1) (by simp)
  rw [liftPass_run, liftFrom_append h.1, liftFrom_congr hkind.consumes hedge, liftPass_run,
    liftPass_run]

/-- A part in which no span of the kind starts is left as it is. -/
theorem liftPass_skips (hkind : Delimited kind.1) (hy : y.getLast? ≠ some '\\') {s : Text}
    (hskips : kind.1.Skips none y s) (d : Draft) : (liftPass kind (y ++ s)).run d =
      (y ++ ((liftPass kind s).run d).1, ((liftPass kind s).run d).2) := by
  have hedge : kind.1.EdgesAgree (y.getLast?.or none) none :=
    hkind.edges _ _ (by rw [Option.or_none]; exact hy) (by simp)
  rw [liftPass_run, liftFrom_skips hkind.consumes hskips, liftFrom_congr hkind.consumes hedge,
    liftPass_run]

/-- A part in which no span starts, in between two others, changes nothing about what is lifted out
of them. -/
theorem LiftsApart.around (hkinds : ∀ kind ∈ kinds, Delimited kind.1) (h : LiftsApart kinds x)
    (hy : y.getLast? ≠ some '\\') (hskips : ∀ kind ∈ kinds, ∀ s, kind.1.Skips none y s) (s : Text)
    (d : Draft) : ((liftAll kinds (x ++ (y ++ s))).run d).2 = ((liftAll kinds (x ++ s)).run d).2 := by
  induction kinds generalizing x s d with
  | nil => rfl
  | cons kind kinds ih =>
    have hkind := hkinds kind (by simp)
    rw [liftAll_cons_run, liftAll_cons_run, h.liftPass_append hkind, h.liftPass_append hkind,
      liftPass_skips hkind hy (hskips kind (by simp) s)]
    exact ih (fun kind hkind => hkinds kind (by simp [hkind])) (h.2.2 d)
      (fun kind hkind => hskips kind (by simp [hkind])) _ _

end Around

end LatexPreview
