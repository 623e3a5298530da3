import Mathlib
import LatexPreview.Proofs.Convert.Blindness

/-!
# Where lifted spans stand

Lifting goes over a text once for each kind of spans, and each time puts tokens in place of
spans, so that a span may hold tokens and letters that stood apart.  To tell which spans
are parts of the text that is given, its letters are followed through all passes.

* `Traced` is a text whose letters know their places in the text that is given
* `liftKinds` lifts math out of such a text; `liftKinds_text`: it does what `liftMath` does
* `liftedPlaces` are the places of the spans that are parts of the text that is given
* `origins_liftKind`: letters are either taken out or left, and no letter is doubled
-/

namespace LatexPreview

/-! ## Traced texts -/

/-- A text each of whose letters knows its place in the text that is given, if it is from there. -/
abbrev Traced := List (Char × Option Nat)

namespace Traced

/-- The letters. -/
def text (τ : Traced) : Text := τ.map Prod.fst

/-- A text that starts at a place of the text that is given. -/
def numbered : Nat → Text → Traced
  | _, [] => []
  | n, c :: s => (c, some n) :: numbered (n + 1) s

/-- A text that is not from the text that is given. -/
def made (s : Text) : Traced := s.map fun c => (c, none)

/-- The places of the letters. -/
def origins (τ : Traced) : List Nat := τ.filterMap Prod.snd

/-- The place of the first letter and the number of letters, if all of them are from there and
stand there side by side. -/
def place? (τ : Traced) : Option (Nat × Nat) := do
  let n ← (← τ.head?).2
  if τ.map Prod.snd = (List.range' n τ.length).map some then pure (n, τ.length) else none

@[simp] theorem text_append (τ υ : Traced) : text (τ ++ υ) = text τ ++ text υ := List.map_append

@[simp] theorem text_made (s : Text) : text (made s) = s := by
  simp [text, made, Function.comp_def]

@[simp] theorem text_numbered (n : Nat) (s : Text) : text (numbered n s) = s := by
  induction s generalizing n with
  | nil => rfl
  | cons c s ih => exact congrArg (c :: ·) (ih (n + 1))

@[simp] theorem origins_append (τ υ : Traced) : origins (τ ++ υ) = origins τ ++ origins υ :=
  List.filterMap_append

@[simp] theorem origins_made (s : Text) : origins (made s) = [] := by
  simp [origins, made]

theorem numbered_append (n : Nat) (s t : Text) :
    numbered n (s ++ t) = numbered n s ++ numbered (n + s.length) t := by
  induction s generalizing n with
  | nil => rfl
  | cons c s ih =>
    rw [List.cons_append, numbered, numbered, ih, List.length_cons, Nat.add_assoc,
      Nat.add_comm 1]
    rfl

theorem map_snd_numbered (n : Nat) (s : Text) :
    (numbered n s).map Prod.snd = (List.range' n s.length).map some := by
  induction s generalizing n with
  | nil => rfl
  | cons c s ih => rw [numbered, List.map_cons, ih, List.length_cons, List.range'_succ]; rfl

theorem origins_eq_of_map_snd {τ : Traced} {ns : List Nat} (h : τ.map Prod.snd = ns.map some) :
    origins τ = ns := by
  have hsame : origins τ = (τ.map Prod.snd).filterMap id := by simp [origins, List.filterMap_map]
  rw [hsame, h]
  simp

theorem origins_numbered (n : Nat) (s : Text) : origins (numbered n s) = List.range' n s.length :=
  origins_eq_of_map_snd (map_snd_numbered n s)

theorem map_snd_of_place? {τ : Traced} {n k : Nat} (h : place? τ = some (n, k)) :
    τ.map Prod.snd = (List.range' n k).map some := by
  cases τ with
  | nil => exact absurd h (by simp [place?])
  | cons x τ =>
    obtain ⟨c, m⟩ := x
    cases m with
    | none => exact absurd h (by simp [place?])
    | some m =>
      simp only [place?, List.head?_cons, Option.bind_eq_bind, Option.bind_some,
        Option.ite_none_right_eq_some] at h
      obtain ⟨hmap, heq⟩ := h
      obtain ⟨rfl, rfl⟩ := Prod.mk.inj (Option.some.inj heq)
      exact hmap

theorem mem_origins {τ : Traced} {c : Char} {n : Nat} (h : (c, some n) ∈ τ) : n ∈ origins τ :=
  List.mem_filterMap.2 ⟨_, h, rfl⟩

/-- In a text where no place occurs twice, the letter at a place is known. -/
theorem eq_of_mem_of_mem {τ : Traced} (h : (origins τ).Nodup) {c d : Char} {n : Nat}
    (hc : (c, some n) ∈ τ) (hd : (d, some n) ∈ τ) : c = d := by
  induction τ with
  | nil => exact absurd hc (by simp)
  | cons x τ ih =>
    have hfront : ∀ e, (e, some n) = x → ∀ e', (e', some n) ∈ τ → False := by
      rintro e rfl e' he'
      have hnodup : (n :: origins τ).Nodup := h
      exact (List.nodup_cons.1 hnodup).1 (mem_origins he')
    have hlater : (origins τ).Nodup := by
      obtain ⟨e, m⟩ := x
      cases m with
      | none => exact h
      | some m => exact (List.nodup_cons.1 (show (m :: origins τ).Nodup from h)).2
    rcases List.mem_cons.1 hc with hc | hc <;> rcases List.mem_cons.1 hd with hd | hd
    · exact congrArg Prod.fst (hc.trans hd.symm)
    · exact (hfront c hc d hd).elim
    · exact (hfront d hd c hc).elim
    · exact ih hlater hc hd

/-- So parts of it from the same places are the same. -/
theorem eq_of_map_snd_eq {τ μ ν : Traced} (h : (origins τ).Nodup) {ns : List Nat}
    (hμ : μ.map Prod.snd = ns.map some) (hν : ν.map Prod.snd = ns.map some)
    (hinμ : ∀ x ∈ μ, x ∈ τ) (hinν : ∀ x ∈ ν, x ∈ τ) : μ = ν := by
  induction ns generalizing μ ν with
  | nil => rw [List.map_eq_nil_iff.1 hμ, List.map_eq_nil_iff.1 hν]
  | cons n ns ih =>
    obtain ⟨⟨c, _⟩, μ, rfl, rfl, hμ'⟩ := List.map_eq_cons_iff.1 hμ
    obtain ⟨⟨d, _⟩, ν, rfl, rfl, hν'⟩ := List.map_eq_cons_iff.1 hν
    have hsame : c = d :=
      eq_of_mem_of_mem h (hinμ (c, some n) (by simp)) (hinν (d, some n) (by simp))
    rw [hsame, ih hμ' hν' (fun x hx => hinμ x (by simp [hx])) fun x hx => hinν x (by simp [hx])]

end Traced

open Traced

/-! ## Lifting -/

theorem Pattern.whole_sliced_cut (p : Pattern) (s : Text) : (p.cut s).sliced.whole = s := by
  have hwhole : ∀ {s : Text} {hits : List Hit} {tail : Text}, p.CutsInto s hits tail →
      (Cut.mk hits tail).sliced.whole = s := by
    intro s hits tail h
    induction h with
    | tail s => rfl
    | hit _ _ ih => exact congrArg _ ih
  exact hwhole (p.cut_cutsInto s)

theorem Pattern.Consumes.ne_nil_of_mem_slices {p : Pattern} (hp : p.Consumes) {s m : Text}
    (h : m ∈ (p.cut s).sliced.slices) : m ≠ [] := by
  have hslices : ∀ {s : Text} {hits : List Hit} {tail : Text}, p.CutsInto s hits tail →
      m ∈ (Cut.mk hits tail).sliced.slices → m ≠ [] := by
    intro s hits tail h hm
    induction h with
    | tail s => exact absurd hm (by simp [Cut.sliced, Sliced.slices])
    | @hit h hits tail found later ih =>
      rcases List.mem_cons.1 hm with rfl | hm
      · obtain ⟨b, hmatch⟩ := found
        rintro hnil
        have hless := hp _ _ hmatch
        rw [hnil] at hless
        exact absurd hless (lt_irrefl _)
      · exact ih hm
  exact hslices (p.cut_cutsInto s) h

/-- Cuts a traced text at the spans of a kind. -/
def Traced.cut (p : Pattern) (τ : Traced) : Sliced (Char × Option Nat) :=
  (p.cut τ.text).sliced.along τ

/-- Lifts the math of one kind. -/
def liftPass (kind : Pattern × MathPlace) (s : Text) : Drafting Text :=
  kind.1.replaceM (fun h => liftSpan kind.2 h.matched) s

/-- Takes the spans of one kind out of a traced text: what is left, and the spans. -/
def liftKind (kind : Pattern × MathPlace) (τ : Traced) : Drafting (Traced × List Traced) := do
  let tokens ← storeSpans kind.2 ((Traced.cut kind.1 τ).slices.map text)
  pure ((Traced.cut kind.1 τ).refill (tokens.map made), (Traced.cut kind.1 τ).slices)

/-- Takes the spans of some kinds out of a traced text, one kind after the other. -/
def liftKinds : List (Pattern × MathPlace) → Traced → Drafting (Traced × List Traced)
  | [], τ => pure (τ, [])
  | kind :: kinds, τ => do
    let (τ, spans) ← liftKind kind τ
    let (τ, later) ← liftKinds kinds τ
    pure (τ, spans ++ later)

/-- The places of the spans that are lifted just as they stand in a text: the place of the first
letter and the number of letters. -/
def liftedPlaces (s : Text) : List (Nat × Nat) :=
  (((liftKinds mathSpanKinds (numbered 0 s)).run .fresh).1.2).filterMap place?

theorem Traced.whole_cut (p : Pattern) (τ : Traced) : (Traced.cut p τ).whole = τ :=
  Sliced.whole_along _ _

theorem Traced.cut_map_text (p : Pattern) (τ : Traced) :
    (Traced.cut p τ).map text = (p.cut τ.text).sliced :=
  Sliced.along_map Prod.fst _ (p.whole_sliced_cut τ.text).symm

theorem liftKind_run (kind : Pattern × MathPlace) (τ : Traced) (d : Draft) :
    (liftKind kind τ).run d =
      let stored := (storeSpans kind.2 (kind.1.cut τ.text).sliced.slices).run d
      (((Traced.cut kind.1 τ).refill (stored.1.map made), (Traced.cut kind.1 τ).slices),
        stored.2) := by
  rw [liftKind, ← Traced.cut_map_text, Sliced.slices_map]
  rfl

/-- Following the letters does not change what is done to the text. -/
theorem liftKind_text (kind : Pattern × MathPlace) (τ : Traced) (d : Draft) :
    (liftPass kind τ.text).run d =
      (((liftKind kind τ).run d).1.1.text, ((liftKind kind τ).run d).2) := by
  have htext : ∀ tokens : List Text, (tokens.map made).map text = tokens := by
    intro tokens
    simp [Function.comp_def]
  rw [liftPass, Pattern.replaceM, replaceM_liftSpan, liftKind_run]
  dsimp only
  rw [← Sliced.refill_map text_append, Traced.cut_map_text, htext]

theorem liftKinds_text (kinds : List (Pattern × MathPlace)) (τ : Traced) (d : Draft) :
    (kinds.foldlM (fun s kind => liftPass kind s) τ.text : Drafting Text).run d =
      (((liftKinds kinds τ).run d).1.1.text, ((liftKinds kinds τ).run d).2) := by
  induction kinds generalizing τ d with
  | nil => rfl
  | cons kind kinds ih =>
    calc _ = (kinds.foldlM (fun s kind => liftPass kind s)
          ((liftPass kind τ.text).run d).1).run ((liftPass kind τ.text).run d).2 := rfl
      _ = _ := by rw [liftKind_text]; exact ih _ _

theorem liftMath_eq (s : Text) :
    liftMath s = mathSpanKinds.foldlM (fun s kind => liftPass kind s) s := rfl

/-! ## The places of letters -/

theorem origins_flatten {l : List Traced} {n : Nat} :
    n ∈ origins l.flatten ↔ ∃ τ ∈ l, n ∈ origins τ := by
  simp only [origins, List.mem_filterMap, List.mem_flatten]
  tauto

/-- Letters are taken out or left, and the tokens that are put in are new. -/
theorem origins_liftKind (kind : Pattern × MathPlace) (τ : Traced) (d : Draft) :
    (origins τ).Perm (origins ((liftKind kind τ).run d).1.1 ++
      origins ((liftKind kind τ).run d).1.2.flatten) := by
  rw [liftKind_run]
  dsimp only
  generalize hstored : (storeSpans kind.2 (kind.1.cut τ.text).sliced.slices).run d = stored
  have hlength : (stored.1.map made).length = (Traced.cut kind.1 τ).slices.length := by
    rw [List.length_map, ← hstored, length_storeSpans, ← Traced.cut_map_text, Sliced.slices_map,
      List.length_map]
  have hnew : origins (stored.1.map made).flatten = [] := by
    refine List.eq_nil_iff_forall_not_mem.2 fun n hn => ?_
    obtain ⟨μ, hμ, hn⟩ := origins_flatten.1 hn
    obtain ⟨token, -, rfl⟩ := List.mem_map.1 hμ
    exact absurd hn (by simp)
  have hbefore := ((Traced.cut kind.1 τ).whole_perm).filterMap Prod.snd
  have hbehind := ((Traced.cut kind.1 τ).refill_perm hlength).filterMap Prod.snd
  rw [Traced.whole_cut] at hbefore
  calc origins τ
    _ |>.Perm (origins ((Traced.cut kind.1 τ).outside ++ (Traced.cut kind.1 τ).slices.flatten)) :=
      hbefore
    _ = origins (Traced.cut kind.1 τ).outside ++
        origins (Traced.cut kind.1 τ).slices.flatten := origins_append _ _
    _ |>.Perm (origins ((Traced.cut kind.1 τ).refill (stored.1.map made)) ++
        origins (Traced.cut kind.1 τ).slices.flatten) := by
      refine List.Perm.append_right _ ?_
      have hsame := origins_append (Traced.cut kind.1 τ).outside (stored.1.map made).flatten
      rw [hnew, List.append_nil] at hsame
      rw [← hsame]
      exact hbehind.symm

/-- Every letter of a span stood in the text. -/
theorem origins_liftKinds {kinds : List (Pattern × MathPlace)} {τ : Traced} {d : Draft} {n : Nat}
    (h : n ∈ origins ((liftKinds kinds τ).run d).1.2.flatten) : n ∈ origins τ := by
  induction kinds generalizing τ d with
  | nil => exact absurd h (by simp [liftKinds, origins, StateT.run, pure, StateT.pure])
  | cons kind kinds ih =>
    have hrun : ((liftKinds (kind :: kinds) τ).run d).1.2 =
        ((liftKind kind τ).run d).1.2 ++
          ((liftKinds kinds ((liftKind kind τ).run d).1.1).run ((liftKind kind τ).run d).2).1.2 :=
      rfl
    rw [hrun, List.flatten_append, origins_append, List.mem_append] at h
    rw [(origins_liftKind kind τ d).mem_iff, List.mem_append]
    exact h.elim .inr fun h => .inl (ih h)

end LatexPreview
