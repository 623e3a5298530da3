import Mathlib
import LatexPreview.Text.Lines

/-!
# Lines of a text

A text is read line by line up to the next line feed.  Other characters end a line in some systems, and
`Text.lines` breaks at all of them.

* `rawLines` are the lines between line feeds
* `exists_mem_rawLines`: no character but line feeds is lost
* `lines_eq_rawLines_iff`: when the two ways of reading lines agree
-/

namespace LatexPreview

open Text

section Lines

variable {l s : Text}

/-! ## Lines between line feeds -/

theorem exists_lines (s : Text) : '\n' ∉ s ∨ ∃ l r, s = l ++ '\n' :: r ∧ '\n' ∉ l := by
  by_cases h : '\n' ∈ s
  · exact .inr (List.eq_append_cons_of_mem h)
  · exact .inl h

/-- The lines of a text. -/
def rawLines (s : Text) : List Text := s.splitOn (· == '\n')

theorem rawLines_line (h : '\n' ∉ l) (s : Text) : rawLines (l ++ '\n' :: s) = l :: rawLines s := by
  induction l with
  | nil => simp [rawLines, splitOn]
  | cons c l ih =>
    have hc : c ≠ '\n' := fun hc => h (by simp [hc])
    have hlater : splitOn (· == '\n') (l ++ '\n' :: s) = l :: rawLines s :=
      ih fun hl => h (by simp [hl])
    simp [rawLines, splitOn, hc, hlater]

theorem rawLines_of_not_mem (h : '\n' ∉ s) : rawLines s = [s] := by
  induction s with
  | nil => rfl
  | cons c s ih =>
    have hc : c ≠ '\n' := fun hc => h (by simp [hc])
    have hlater : splitOn (· == '\n') s = [s] := ih fun hs => h (by simp [hs])
    simp [rawLines, splitOn, hc, hlater]

theorem exists_rawLines_cons (s : Text) : ∃ first more, rawLines s = first :: more := by
  rcases exists_lines s with hs | ⟨l, r, rfl, hl⟩
  · exact ⟨s, [], rawLines_of_not_mem hs⟩
  · exact ⟨l, rawLines r, rawLines_line hl r⟩

/-- What stands in front of a text without ending a line belongs to its first line. -/
theorem rawLines_append {first : Text} {more : List Text} (hl : '\n' ∉ l)
    (hs : rawLines s = first :: more) : rawLines (l ++ s) = (l ++ first) :: more := by
  rcases exists_lines s with hno | ⟨l', r, rfl, hl'⟩
  · rw [rawLines_of_not_mem hno, List.cons_eq_cons] at hs
    obtain ⟨rfl, rfl⟩ := hs
    exact rawLines_of_not_mem (by simp [hl, hno])
  · rw [rawLines_line hl', List.cons_eq_cons] at hs
    obtain ⟨rfl, rfl⟩ := hs
    rw [← List.append_assoc, rawLines_line (by simp [hl, hl'])]

theorem exists_mem_rawLines {c : Char} (hc : c ∈ s) (hbreak : c ≠ '\n') : ∃ l ∈ rawLines s, c ∈ l := by
  induction s with
  | nil => exact absurd hc (by simp)
  | cons d s ih =>
    obtain ⟨first, more, hs⟩ := exists_rawLines_cons s
    by_cases hd : d = '\n'
    · have hin : c ∈ s := (List.mem_cons.1 hc).resolve_left fun h => hbreak (h.trans hd)
      obtain ⟨l, hl, hcl⟩ := ih hin
      rw [hd, show '\n' :: s = [] ++ '\n' :: s from rfl, rawLines_line (by simp)]
      exact ⟨l, List.mem_cons_of_mem _ hl, hcl⟩
    · rw [show d :: s = [d] ++ s from rfl, rawLines_append (by simpa using Ne.symm hd) hs]
      rcases List.mem_cons.1 hc with rfl | hin
      · exact ⟨_, List.mem_cons_self, by simp⟩
      · obtain ⟨l, hl, hcl⟩ := ih hin
        rw [hs] at hl
        rcases List.mem_cons.1 hl with rfl | hl
        · exact ⟨_, List.mem_cons_self, by simp [hcl]⟩
        · exact ⟨l, List.mem_cons_of_mem _ hl, hcl⟩

/-- An empty last line stands behind a line feed, or the text is empty. -/
theorem getLast?_of_rawLines (h : (rawLines s).getLast? = some []) : s = [] ∨ s.getLast? = some '\n' := by
  induction s with
  | nil => exact .inl rfl
  | cons c s ih =>
    obtain ⟨first, more, hs⟩ := exists_rawLines_cons s
    have hlater : (rawLines s).getLast? = some [] → (c :: s).getLast? = some '\n' ∨ s = [] := by
      intro hlast
      rcases ih hlast with hnil | hlast
      · exact .inr hnil
      · exact .inl (by rw [List.getLast?_cons, hlast]; rfl)
    by_cases hc : c = '\n'
    · subst hc
      rw [show '\n' :: s = [] ++ '\n' :: s from rfl, rawLines_line (by simp), hs, List.getLast?_cons_cons,
        ← hs] at h
      exact .inr ((hlater h).elim id fun hnil => by rw [hnil]; rfl)
    · rw [show c :: s = [c] ++ s from rfl, rawLines_append (by simpa using Ne.symm hc) hs] at h
      cases more with
      | nil => exact absurd h (by simp)
      | cons next more =>
        rw [List.getLast?_cons_cons, ← List.getLast?_cons_cons (a := first), ← hs] at h
        refine .inr ((hlater h).elim id fun hnil => ?_)
        rw [hnil, rawLines_of_not_mem (by simp)] at hs
        exact absurd hs (by simp)

/-! ## Lines of all systems -/

theorem endsLine_of_mem_lines (hl : l ∈ Text.lines s) : ∀ c ∈ l, endsLine c = false := by
  fun_induction Text.lines s generalizing l with
  | case1 => exact absurd hl (by simp)
  | case2 s ih =>
    rcases List.mem_cons.1 hl with rfl | hl
    · simp
    · exact ih hl
  | case3 c s _ hc ih =>
    rcases List.mem_cons.1 hl with rfl | hl
    · simp
    · exact ih hl
  | case4 c s _ hc hs ih =>
    rw [List.mem_singleton.1 hl]
    simpa using hc
  | case5 c s _ hc first more hs ih =>
    rcases List.mem_cons.1 hl with rfl | hl
    · intro d hd
      rcases List.mem_cons.1 hd with rfl | hd
      · simpa using hc
      · exact ih (by rw [hs]; exact List.mem_cons_self) d hd
    · exact ih (by rw [hs]; exact List.mem_cons_of_mem _ hl)

/-- If only line feeds end lines, then both ways of reading them agree on a text with an unfinished
last line. -/
theorem lines_eq_rawLines (hne : s ≠ []) (hlast : s.getLast? ≠ some '\n')
    (hends : ∀ c ∈ s, endsLine c = true → c = '\n') : Text.lines s = rawLines s := by
  fun_induction Text.lines s with
  | case1 => exact absurd rfl hne
  | case2 s => exact absurd (hends '\r' (by simp) (by decide)) (by decide)
  | case3 c s _ hc ih =>
    obtain rfl := hends c List.mem_cons_self hc
    have hs : s ≠ [] := by
      rintro rfl
      exact hlast rfl
    rw [ih hs (by rwa [List.getLast?_cons_of_ne_nil hs] at hlast)
      fun d hd => hends d (List.mem_cons_of_mem _ hd)]
    exact (rawLines_line (l := []) (by simp) s).symm
  | case4 c s _ hc hnil ih =>
    have hs : s = [] := by
      by_contra hs
      obtain ⟨first, more, hraw⟩ := exists_rawLines_cons s
      have hsame := ih hs (by rwa [List.getLast?_cons_of_ne_nil hs] at hlast)
        fun d hd => hends d (List.mem_cons_of_mem _ hd)
      simp [hnil, hraw] at hsame
    have hbreak : c ≠ '\n' := by
      rintro rfl
      exact hc (by decide)
    rw [hs, rawLines_of_not_mem (by simpa using Ne.symm hbreak)]
  | case5 c s _ hc first more hlines ih =>
    have hs : s ≠ [] := by
      rintro rfl
      simp [Text.lines] at hlines
    have hbreak : c ≠ '\n' := by
      rintro rfl
      exact hc (by decide)
    rw [ih hs (by rwa [List.getLast?_cons_of_ne_nil hs] at hlast)
      fun d hd => hends d (List.mem_cons_of_mem _ hd)] at hlines
    exact (rawLines_append (l := [c]) (by simpa using Ne.symm hbreak) hlines).symm

/-- Both ways of reading lines agree on a text with an unfinished last line if and only if no other
character ends a line in it. -/
theorem lines_eq_rawLines_iff (hlast : s.getLast? ≠ some '\n') :
    Text.lines s = rawLines s ↔ s ≠ [] ∧ ∀ c ∈ s, endsLine c = true → c = '\n' := by
  constructor
  · intro hsame
    refine ⟨?_, fun c hc hends => ?_⟩
    · rintro rfl
      exact absurd hsame (by decide)
    · by_contra hbreak
      obtain ⟨l, hl, hcl⟩ := exists_mem_rawLines hc hbreak
      rw [← hsame] at hl
      simp [endsLine_of_mem_lines hl c hcl] at hends
  · exact fun ⟨hne, hends⟩ => lines_eq_rawLines hne hlast hends

end Lines

end LatexPreview
