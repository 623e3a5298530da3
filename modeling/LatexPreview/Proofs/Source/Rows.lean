import Mathlib
import LatexPreview.Proofs.Source.Grammar

/-!
# Searching line by line

In a document of the grammar nothing that is looked for goes beyond a line, but for environments.
So what a search does with the document is known from what it does with single lines.

* `LineWise` patterns match whole lines or nothing in them
* `LineWise.replace_rows`: replacing the matches of such a pattern replaces lines
* `LineWise.forall₂_hits`: its matches are those lines
* `countFrom_rows`: matches are counted line by line
-/

namespace LatexPreview

open Pattern Text

/-! ## Single lines -/

theorem rows_cons (l : Line) (ls : List Line) : rows (l :: ls) = '\n' :: l.text ++ rows ls := rfl

/-- The character in front of what follows a line. -/
def Line.last (l : Line) : Option Char := l.text.getLast?.or (some '\n')

/-- No match starts at the end of a line. -/
def SkipsLineEnd (p : Pattern) : Prop := ∀ b s, p.at? b ('\n' :: s) = none

theorem Pattern.Opens.skipsLineEnd {p : Pattern} {c : Char} (hp : p.Opens c) (hc : c ≠ '\n') :
    SkipsLineEnd p :=
  fun _ s => (hp.skips (x := ['\n']) (by simpa using hc) s).1

section Line

variable {p : Pattern} {b : Option Char} {l : Line} {s : Text}

/-- A cut goes over a line without matches. -/
theorem cutFrom_line_skips (hp : p.Consumes) (hend : SkipsLineEnd p)
    (h : p.Skips (some '\n') l.text s) :
    p.cutFrom b ('\n' :: l.text ++ s) = (p.cutFrom l.last s).prepend ('\n' :: l.text) := by
  have hskips : p.Skips b ('\n' :: l.text) s := ⟨hend b _, h⟩
  have hlast : ('\n' :: l.text).getLast?.or b = l.last :=
    getLast?_append_or ['\n'] l.text b
  rw [cutFrom_skips hp hskips, hlast]

/-- A cut that meets a match at the start of a line. -/
theorem cutFrom_line_hit (hp : p.Consumes) (hend : SkipsLineEnd p) {m : Text} {stop : Cursor}
    (h : p.at? (some '\n') (m ++ s) = some stop) (hrest : stop.rest = s) :
    p.cutFrom b ('\n' :: m ++ s) =
      ⟨⟨['\n'], m, stop⟩ :: (p.cutFrom (m.getLast?.or (some '\n')) s).hits,
        (p.cutFrom (m.getLast?.or (some '\n')) s).tail⟩ := by
  have hne : m ≠ [] := by
    rintro rfl
    have hless := hp _ _ (matches_of_at? h)
    rw [hrest] at hless
    exact absurd hless (lt_irrefl _)
  have hskips : p.Skips b ['\n'] (m ++ s) := ⟨hend b _, trivial⟩
  have hsplit : '\n' :: m ++ s = ['\n'] ++ (m ++ s) := rfl
  rw [hsplit, cutFrom_skips hp hskips, List.getLast?_singleton, Option.some_or,
    cutFrom_hit hp hne h hrest]
  rfl

theorem cutFrom_rows_nil (hp : p.Consumes) : p.cutFrom b (rows []) = ⟨[], []⟩ :=
  cutFrom_eq_tail hp (s := []) trivial

end Line

/-- A document whose lines are gone over is gone over. -/
theorem skips_withHeading {p : Pattern} {ls : List Line} (hend : SkipsLineEnd p)
    (hls : ∀ l ∈ .heading :: ls, ∀ b s, AtLineEnd s → p.Skips b l.text s) :
    p.Skips none (withHeading ls) [] := by
  have hrows : ∀ ms b, (∀ l ∈ ms, l ∈ ls) → p.Skips b (rows ms) [] := by
    intro ms
    induction ms with
    | nil => exact fun _ _ => trivial
    | cons l ms ih =>
      intro b hms
      have hline := hls l (by simp [hms l (by simp)]) (some '\n') _ (atLineEnd_rows ms)
      refine skips_append.2 ⟨⟨hend b _, ?_⟩, ih _ fun m hm => hms m (by simp [hm])⟩
      rwa [List.append_nil]
  refine skips_append.2 ⟨?_, hrows ls _ fun _ h => h⟩
  rw [List.append_nil]
  exact hls .heading (by simp) none _ (atLineEnd_rows ls)

/-! ## Counting -/

/-- Matches are counted line by line. -/
theorem countFrom_rows {p : Pattern} {n : Line → Nat} {ls : List Line} (hp : p.Consumes)
    (hline : ∀ l ∈ ls, ∀ b s, AtLineEnd s →
      p.countFrom b ('\n' :: l.text ++ s) = n l + p.countFrom l.last s) (b : Option Char) :
    p.countFrom b (rows ls) = (ls.map n).sum := by
  induction ls generalizing b with
  | nil =>
    rw [countFrom, cutFrom_rows_nil hp]
    rfl
  | cons l ls ih =>
    rw [rows_cons, hline l (by simp) b _ (atLineEnd_rows ls),
      ih (fun l hl => hline l (by simp [hl])), List.map_cons, List.sum_cons]

theorem cut_withHeading {p : Pattern} {ls : List Line} (hp : p.Consumes)
    (h : p.Skips none Line.heading.text (rows ls)) :
    p.cut (withHeading ls) = (p.cutFrom Line.heading.last (rows ls)).prepend Line.heading.text :=
  cutFrom_skips hp h

theorem replace_prepend (x w : Text) (c : Cut) :
    (c.prepend x).replace (fun _ => w) = x ++ c.replace fun _ => w := by
  obtain ⟨hits, tail⟩ := c
  cases hits <;> simp [Cut.prepend, Cut.replace]

/-! ## Whole lines -/

/-- In lines of a kind, some lines are matches of the pattern and the others hold none. -/
structure LineWise (p : Pattern) (kind : Line → Prop) (whole : Line → Bool) : Prop where
  consumes : p.Consumes
  skipsLineEnd : SkipsLineEnd p
  heading : kind .heading ∧ whole .heading = false
  skips : ∀ l b s, kind l → whole l = false → AtLineEnd s → p.Skips b l.text s
  hits : ∀ l s, kind l → whole l = true → AtLineEnd s →
    ∃ stop, p.at? (some '\n') (l.text ++ s) = some stop ∧ stop.rest = s

theorem forall₂_hits_prepend {R : Hit → Line → Prop} {x : Text} {c : Cut} {ls : List Line}
    (hR : ∀ h l, R h l → R { h with gap := x ++ h.gap } l) (h : List.Forall₂ R c.hits ls) :
    List.Forall₂ R (c.prepend x).hits ls := by
  obtain ⟨hits, tail⟩ := c
  cases h with
  | nil => exact .nil
  | cons hfirst hlater => exact .cons (hR _ _ hfirst) hlater

namespace LineWise

variable {p : Pattern} {kind : Line → Prop} {whole : Line → Bool} {ls : List Line}

theorem cut_eq (hp : LineWise p kind whole) (ls : List Line) :
    p.cut (withHeading ls) = (p.cutFrom Line.heading.last (rows ls)).prepend Line.heading.text :=
  cut_withHeading hp.consumes
    (hp.skips .heading none (rows ls) hp.heading.1 hp.heading.2 (atLineEnd_rows ls))

/-- Replacing the matches of the pattern replaces lines. -/
theorem replace_rows (hp : LineWise p kind whole) (hls : ∀ l ∈ ls, kind l) (blank : Line)
    (b : Option Char) : (p.cutFrom b (rows ls)).replace (fun _ => blank.text) =
      rows (ls.map fun l => if whole l then blank else l) := by
  induction ls generalizing b with
  | nil =>
    rw [cutFrom_rows_nil hp.consumes]
    rfl
  | cons l ls ih =>
    have hlater := ih fun l hl => hls l (by simp [hl])
    rw [rows_cons, List.map_cons, rows_cons]
    cases hwhole : whole l with
    | false =>
      have hskips := hp.skips l (some '\n') _ (hls l (by simp)) hwhole (atLineEnd_rows ls)
      rw [cutFrom_line_skips hp.consumes hp.skipsLineEnd hskips, replace_prepend, hlater]
      rfl
    | true =>
      obtain ⟨stop, hstop, hrest⟩ := hp.hits l _ (hls l (by simp)) hwhole (atLineEnd_rows ls)
      rw [cutFrom_line_hit hp.consumes hp.skipsLineEnd hstop hrest, if_pos rfl, ← hlater l.last]
      simp [Cut.replace, Line.last]

theorem replace_withHeading (hp : LineWise p kind whole) (hls : ∀ l ∈ ls, kind l) (blank : Line) :
    p.replace (fun _ => blank.text) (withHeading ls) =
      withHeading (ls.map fun l => if whole l then blank else l) := by
  rw [Pattern.replace, hp.cut_eq, replace_prepend, hp.replace_rows hls]
  rfl

/-- The matches of the pattern are lines. -/
theorem forall₂_hits (hp : LineWise p kind whole) (hls : ∀ l ∈ ls, kind l) :
    List.Forall₂ (fun h l => ∃ s, p.at? (some '\n') (l.text ++ s) = some h.stop ∧ h.stop.rest = s)
      (p.cut (withHeading ls)).hits (ls.filter whole) := by
  rw [hp.cut_eq]
  refine forall₂_hits_prepend (fun _ _ h => h) ?_
  generalize Line.heading.last = b
  induction ls generalizing b with
  | nil =>
    rw [cutFrom_rows_nil hp.consumes]
    exact .nil
  | cons l ls ih =>
    have hlater := ih fun l hl => hls l (by simp [hl])
    rw [rows_cons]
    cases hwhole : whole l with
    | false =>
      have hskips := hp.skips l (some '\n') _ (hls l (by simp)) hwhole (atLineEnd_rows ls)
      rw [cutFrom_line_skips hp.consumes hp.skipsLineEnd hskips,
        List.filter_cons_of_neg (by simp [hwhole])]
      exact forall₂_hits_prepend (fun _ _ h => h) (hlater _)
    | true =>
      obtain ⟨stop, hstop, hrest⟩ := hp.hits l _ (hls l (by simp)) hwhole (atLineEnd_rows ls)
      rw [cutFrom_line_hit hp.consumes hp.skipsLineEnd hstop hrest,
        List.filter_cons_of_pos hwhole]
      exact .cons ⟨_, hstop, hrest⟩ (hlater _)

end LineWise

end LatexPreview
