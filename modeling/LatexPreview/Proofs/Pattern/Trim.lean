import Mathlib
import LatexPreview.Proofs.Source.Spans
import LatexPreview.Text.Blank

/-!
# Blanks around texts

To trim a text is to take blanks off its ends, so that it is firm: it neither starts nor ends with a
blank.  A pattern that has nothing to do with blanks cuts a text in the same way before and after.

* `exists_trim`, `trim_eq`: the trimmed text is the firm one in between blanks
* `Trims`: a pattern that has nothing to do with blanks around a text
* `Trims.slicedFrom_blanks`: blanks at the end of a text are not part of its cut
-/

namespace LatexPreview

namespace Text

variable {w s t : Text}

/-! ## Trimming -/

/-- The text does not start or end with a blank. -/
def Firm (s : Text) : Prop :=
  (∀ c ∈ s.head?, isBlank c = false) ∧ ∀ c ∈ s.getLast?, isBlank c = false

theorem trimEnd_eq_nil (ht : ∀ c ∈ t, isBlank c = true) : t.trimEnd = [] := by
  rw [← List.isEmpty_iff, trimEnd_isEmpty, allBlank, List.all_eq_true]
  exact ht

theorem trimEnd_append (ht : ∀ c ∈ t, isBlank c = true) : (s ++ t).trimEnd = s.trimEnd := by
  induction s with
  | nil => exact trimEnd_eq_nil ht
  | cons c s ih => rw [List.cons_append, Text.trimEnd, ih, Text.trimEnd]

theorem trimEnd_eq_self (hs : ∀ c ∈ s.getLast?, isBlank c = false) : s.trimEnd = s := by
  induction s with
  | nil => rfl
  | cons c s ih =>
    rw [Text.trimEnd]
    cases s with
    | nil => simp [Text.trimEnd, hs c (by simp)]
    | cons d s => rw [ih (by simpa using hs)]

/-- Blanks are only taken off behind what ends in no blank. -/
theorem trimEnd_behind (hs : ∃ c ∈ s.getLast?, isBlank c = false) :
    (s ++ t).trimEnd = s ++ t.trimEnd := by
  obtain ⟨c, hlast, hc⟩ := hs
  induction s with
  | nil => exact absurd hlast (by simp)
  | cons d s ih =>
    rw [List.cons_append, Text.trimEnd]
    cases s with
    | nil =>
      obtain rfl : d = c := by simpa using hlast
      cases ht : t.trimEnd <;> simp [ht, hc]
    | cons e s => rw [ih (by simpa using hlast)]; rfl

/-- The text between blanks. -/
theorem Firm.trim_eq {l : Text} (h : Firm s) (hl : ∀ c ∈ l, isBlank c = true)
    (ht : ∀ c ∈ t, isBlank c = true) : (l ++ (s ++ t)).trim = s := by
  have hstart : (l ++ (s ++ t)).trimStart = (s ++ t).trimStart := List.dropWhile_append_of_pos hl
  rw [Text.trim, hstart]
  cases s with
  | nil =>
    have hnil : t.trimStart = [] := List.dropWhile_eq_nil_iff.2 ht
    rw [List.nil_append, hnil]
    rfl
  | cons c s =>
    have hc : ¬ isBlank c = true := by simp [h.1 c (by simp)]
    have hfirm : Text.trimStart (c :: s ++ t) = c :: s ++ t := List.dropWhile_cons_of_neg hc
    rw [hfirm, trimEnd_append ht, trimEnd_eq_self h.2]

theorem exists_trimEnd (s : Text) : ∃ t, s = s.trimEnd ++ t ∧ (∀ c ∈ t, isBlank c = true) ∧
    ∀ c ∈ s.trimEnd.getLast?, isBlank c = false := by
  induction s with
  | nil => exact ⟨[], rfl, by simp, by simp [Text.trimEnd]⟩
  | cons c s ih =>
    obtain ⟨t, hs, ht, hlast⟩ := ih
    rw [Text.trimEnd]
    cases hrest : Text.trimEnd s with
    | cons d r =>
      rw [hrest] at hs hlast
      exact ⟨t, congrArg (c :: ·) hs, ht, by simpa using hlast⟩
    | nil =>
      obtain rfl : s = t := by rwa [hrest] at hs
      by_cases hc : isBlank c = true
      · exact ⟨c :: s, by simp [hc], by simpa using ⟨hc, ht⟩, by simp [hc]⟩
      · exact ⟨s, by simp [hc], ht, by simp [hc]⟩

/-- To trim a text is to take blanks off its ends, until it is firm. -/
theorem exists_trim (s : Text) : ∃ l t, s = l ++ (s.trim ++ t) ∧ (∀ c ∈ l, isBlank c = true) ∧
    (∀ c ∈ t, isBlank c = true) ∧ Firm s.trim := by
  obtain ⟨t, hs, ht, hlast⟩ := exists_trimEnd s.trimStart
  refine ⟨s.takeWhile isBlank, t, ?_, fun c hc => List.mem_takeWhile_imp hc, ht, fun c hc => ?_, hlast⟩
  · rw [Text.trim, ← hs]
    exact (List.takeWhile_append_dropWhile (p := isBlank)).symm
  · have hfirst : s.trimStart.head? = some c := by
      rw [hs, List.head?_append, show s.trimStart.trimEnd.head? = some c from hc]
      rfl
    have hstart := List.head?_dropWhile_not isBlank s
    rw [show s.dropWhile isBlank = s.trimStart from rfl, hfirst] at hstart
    simpa using hstart

/-- Blanks around a text do not matter when it is trimmed. -/
theorem trim_blanks {l : Text} (hl : ∀ c ∈ l, isBlank c = true) (ht : ∀ c ∈ t, isBlank c = true) :
    (l ++ (s ++ t)).trim = s.trim := by
  obtain ⟨l', t', hs, hl', ht', hfirm⟩ := exists_trim s
  have hboth : l ++ (s ++ t) = (l ++ l') ++ (s.trim ++ (t' ++ t)) := by
    conv_lhs => rw [hs]
    simp
  rw [hboth, hfirm.trim_eq]
  · exact fun c hc => (List.mem_append.1 hc).elim (hl c) (hl' c)
  · exact fun c hc => (List.mem_append.1 hc).elim (ht' c) (ht c)

theorem trim_trimEnd (s : Text) : s.trimEnd.trim = s.trim := by
  obtain ⟨t, hs, ht, -⟩ := exists_trimEnd s
  have hblanks := trim_blanks (l := []) (s := s.trimEnd) (by simp) ht
  rwa [List.nil_append, ← hs, eq_comm] at hblanks

theorem trim_trim (s : Text) : s.trim.trim = s.trim := by
  obtain ⟨-, -, -, -, -, hfirm⟩ := exists_trim s
  have hsame := hfirm.trim_eq (l := []) (t := []) (by simp) (by simp)
  rwa [List.nil_append, List.append_nil] at hsame

/-- A trimmed text starts with the first character that is no blank. -/
theorem head?_trim (s : Text) : s.trim.head? = s.trimStart.head? := by
  cases hs : s.trimStart with
  | nil => rw [Text.trim, hs]; rfl
  | cons c r =>
    have hc : isBlank c = false := by
      have hfirst := List.head?_dropWhile_not isBlank s
      rw [show s.dropWhile isBlank = c :: r from hs] at hfirst
      simpa using hfirst
    rw [Text.trim, hs, Text.trimEnd]
    cases Text.trimEnd r <;> simp [hc]

/-! ## Searching in front of blanks -/

theorem isAlpha_of_isBlank {c : Char} (h : isBlank c = true) : c.isAlpha = false := by
  refine Bool.eq_false_iff.2 fun halpha => ?_
  simp only [Char.isAlpha, Char.isUpper, Char.isLower, Bool.or_eq_true, Bool.and_eq_true,
    decide_eq_true_eq, UInt32.le_iff_toNat_le, ge_iff_le] at halpha
  change (65 ≤ c.toNat ∧ c.toNat ≤ 90) ∨ (97 ≤ c.toNat ∧ c.toNat ≤ 122) at halpha
  simp only [isBlank, Bool.or_eq_true, Bool.and_eq_true, decide_eq_true_eq, beq_iff_eq] at h
  omega

theorem dropFront?_blanks (hw : ∀ c ∈ w, c ∉ t) :
    dropFront? w (s ++ t) = (dropFront? w s).map (· ++ t) := by
  induction w generalizing s with
  | nil => rfl
  | cons c w ih =>
    cases s with
    | nil =>
      cases t with
      | nil => rfl
      | cons d t =>
        have hne : c ≠ d := by
          rintro rfl
          exact hw c (by simp) (by simp)
        exact if_neg hne
    | cons d s =>
      rw [List.cons_append, dropFront?, dropFront?, ih fun e he => hw e (by simp [he])]
      split <;> rfl

theorem find?_blanks (hne : w ≠ []) (hw : ∀ c ∈ w, c ∉ t) :
    Text.find? w (s ++ t) = (Text.find? w s).map fun found => (found.1, found.2 ++ t) := by
  induction s with
  | nil =>
    obtain ⟨c, w, rfl⟩ := List.exists_cons_of_ne_nil hne
    have hnone : Text.find? (c :: w) t = none :=
      Text.find?_eq_none hne (avoids_of_not_mem (hw c (by simp)))
    rw [List.nil_append, hnone]
    rfl
  | cons d s ih =>
    have hfront := dropFront?_blanks (s := d :: s) hw
    rw [List.cons_append] at hfront ⊢
    rw [Text.find?, Text.find?, hfront]
    cases dropFront? w (d :: s) with
    | some r => rfl
    | none =>
      rw [Option.map_none, ih]
      cases Text.find? w s <;> rfl

end Text

/-! ## Patterns -/

namespace Pattern

/-- The pattern does not start with a blank, and does not look at blanks at the end of a text. -/
structure Trims (p : Pattern) : Prop where
  opens : ∃ c, isBlank c = false ∧ p.Opens c
  blanks : ∀ (b : Option Char) (s t : Text), (∀ c ∈ t, isBlank c = true) →
    (p.at? b (s ++ t)).map (·.rest) = (p.at? b s).map fun stop => stop.rest ++ t

namespace Trims

variable {p : Pattern} (hp : p.Trims) {b : Option Char} {x s t : Text}

include hp

theorem consumes : p.Consumes := by
  obtain ⟨c, -, hopens⟩ := hp.opens
  exact hopens.consumes

theorem skips_blanks (ht : ∀ c ∈ t, isBlank c = true) (b : Option Char) (s : Text) :
    p.Skips b t s := by
  obtain ⟨c, hc, hopens⟩ := hp.opens
  exact hopens.skips (fun hmem => absurd (ht c hmem) (by simp [hc])) s

/-- Blanks at the end of a text are not part of its cut. -/
theorem slicedFrom_blanks (ht : ∀ c ∈ t, isBlank c = true) (b : Option Char) (s : Text) :
    p.slicedFrom b (s ++ t) = (p.slicedFrom b s).append (.tail t) := by
  have halone : ∀ b, p.slicedFrom b t = .tail t := by
    intro b
    have hskips := slicedFrom_skips hp.consumes (hp.skips_blanks ht b [])
    rwa [List.append_nil, slicedFrom_nil hp.consumes, Sliced.prepend, List.append_nil] at hskips
  refine cutFrom_induction hp.consumes (motive := fun b s =>
    p.slicedFrom b (s ++ t) = (p.slicedFrom b s).append (.tail t)) (fun b => ?_)
    (fun b c s hat ih => ?_) (fun b m stop hne hat ih => ?_) b s
  · rw [List.nil_append, halone, slicedFrom_nil hp.consumes]
    exact (Sliced.prepend_nil _).symm
  · have hsame := hp.blanks b (c :: s) t ht
    rw [hat, Option.map_none, Option.map_eq_none_iff] at hsame
    have hfirst : ∀ {r}, p.at? b (c :: r) = none →
        p.slicedFrom b (c :: r) = (p.slicedFrom (some c) r).prepend [c] := fun hnone =>
      slicedFrom_skips (x := [c]) hp.consumes ⟨hnone, trivial⟩
    rw [List.cons_append, hfirst (r := s ++ t) hsame, ih, hfirst hat, Sliced.append_prepend]
  · have hsame := hp.blanks b (m ++ stop.rest) t ht
    rw [hat, Option.map_some] at hsame
    obtain ⟨stop', hat', hrest⟩ := Option.map_eq_some_iff.1 hsame
    rw [List.append_assoc] at hat' ⊢
    rw [slicedFrom_hit hp.consumes hne hat' hrest, slicedFrom_hit hp.consumes hne hat rfl, ih]
    rfl

/-- A trimmed text is divided like the whole one, but for blanks in front of the first part and
behind the others, if the pattern does not look at blanks in front of it. -/
theorem exists_split_trim (hedges : ∀ b, (∀ c ∈ b, isBlank c = true) → p.EdgesAgree b none) (s : Text) :
    ∃ l first more, (p.slicedFrom none s).gaps = (l ++ first) :: more ∧ (∀ c ∈ l, isBlank c = true) ∧
      List.Forall₂ (fun x y => ∃ t, y = x ++ t ∧ ∀ c ∈ t, isBlank c = true)
        (p.split s.trim) (first :: more) := by
  obtain ⟨l, t, hs, hl, ht, -⟩ := Text.exists_trim s
  have hedge : p.EdgesAgree (l.getLast?.or none) none := by
    refine hedges _ fun c hc => ?_
    rw [Option.or_none] at hc
    exact hl c (List.mem_of_getLast? hc)
  have hwhole : p.slicedFrom none s = ((p.slicedFrom none s.trim).append (.tail t)).prepend l := by
    conv_lhs => rw [hs]
    rw [slicedFrom_skips hp.consumes (hp.skips_blanks hl none _), slicedFrom_congr hp.consumes hedge,
      hp.slicedFrom_blanks ht]
  have hsplit : p.split s.trim = (p.slicedFrom none s.trim).gaps := Cut.parts_eq_gaps _
  rw [hwhole, hsplit]
  have hend : ∀ σ : Sliced Char, List.Forall₂ (fun x y => ∃ t, y = x ++ t ∧ ∀ c ∈ t, isBlank c = true)
      σ.gaps (σ.append (.tail t)).gaps := by
    intro σ
    induction σ with
    | tail rest => exact .cons ⟨t, rfl, ht⟩ .nil
    | slice gap part later ih => exact .cons ⟨[], (List.append_nil _).symm, by simp⟩ ih
  obtain ⟨first, more, hgaps⟩ :
      ∃ first more, ((p.slicedFrom none s.trim).append (.tail t)).gaps = first :: more := by
    cases (p.slicedFrom none s.trim).append (.tail t) <;> exact ⟨_, _, rfl⟩
  exact ⟨l, first, more, Sliced.gaps_prepend hgaps, hl, hgaps ▸ hend _⟩

end Trims

/-! ## Patterns that have nothing to do with blanks -/

theorem at?_lit (w : Text) (b : Option Char) (s : Text) :
    ((lit w).at? b s).map (·.rest) = Text.dropFront? w s := run_lit_some

theorem trims_lit {w : Text} (hne : w ≠ []) (hw : ∀ c ∈ w, isBlank c = false) :
    (lit w).Trims := by
  obtain ⟨c, v, rfl⟩ := List.exists_cons_of_ne_nil hne
  refine ⟨⟨c, hw c (by simp), opens_lit c v⟩, fun b s t ht => ?_⟩
  have hword : ∀ e ∈ c :: v, e ∉ t := fun e he hmem => absurd (ht e hmem) (by simp [hw e he])
  calc ((lit (c :: v)).at? b (s ++ t)).map (·.rest)
      = (Text.dropFront? (c :: v) s).map (· ++ t) := by rw [at?_lit, Text.dropFront?_blanks hword]
    _ = ((lit (c :: v)).at? b s).map fun stop => stop.rest ++ t := by
      rw [← at?_lit (c :: v) b, Option.map_map]
      rfl

/-- A command whose name ends in front of what follows. -/
theorem at?_fullCommand (name : String) (b : Option Char) (s : Text) :
    ((fullCommand name).at? b s).map (·.rest) =
      (Text.dropFront? ('\\' :: name.toList) s).bind fun r =>
        if r.head?.any Char.isAlpha then none else some r := by
  refine run_lit_rest (k := fun t => wordEnd.run t some) fun t _ _ => ?_
  rw [wordEnd, run]
  cases t.rest.head?.any Char.isAlpha <;> rfl

theorem trims_fullCommand {name : String} (hname : ∀ c ∈ name.toList, isBlank c = false) :
    (fullCommand name).Trims := by
  refine ⟨⟨'\\', by decide, (opens_command name).append _⟩, fun b s t ht => ?_⟩
  have hword : ∀ c ∈ '\\' :: name.toList, c ∉ t := by
    intro c hc hmem
    rcases List.mem_cons.1 hc with rfl | hc
    · exact absurd (ht _ hmem) (by decide)
    · exact absurd (ht c hmem) (by simp [hname c hc])
  have hend : ∀ r : Text, (r ++ t).head?.any Char.isAlpha = r.head?.any Char.isAlpha := by
    rintro (_ | ⟨c, r⟩)
    · cases t with
      | nil => rfl
      | cons c t => simpa using Text.isAlpha_of_isBlank (ht c (by simp))
    · rfl
  calc ((fullCommand name).at? b (s ++ t)).map (·.rest)
      = ((Text.dropFront? ('\\' :: name.toList) s).map (· ++ t)).bind fun r =>
          if r.head?.any Char.isAlpha then none else some r := by
        rw [at?_fullCommand, Text.dropFront?_blanks hword]
    _ = ((Text.dropFront? ('\\' :: name.toList) s).bind fun r =>
          if r.head?.any Char.isAlpha then none else some r).map (· ++ t) := by
        cases Text.dropFront? ('\\' :: name.toList) s with
        | none => rfl
        | some r =>
          simp only [Option.map_some, Option.bind_some, hend]
          split <;> rfl
    _ = ((fullCommand name).at? b s).map fun stop => stop.rest ++ t := by
        rw [← at?_fullCommand name b, Option.map_map]
        rfl

end Pattern

end LatexPreview
