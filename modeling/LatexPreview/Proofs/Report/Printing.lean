import Mathlib
import LatexPreview.Proofs.Pattern.Trim
import LatexPreview.Report.Console

/-!
# Printing comes to an end

A step of wrapping takes something off a text if the segments have some width.  If they have none, it
never reaches the last character of the text, and goes on for ever.

* `exists_wrap`: a text is divided into segments if they have some width
* `exists_wrap_iff`: and only then, if there is something to divide and it does not end with a line feed
* `Message.exists_console_of_wide`: a message is printed if the terminal is wide enough
* `Message.console_ends_iff`: the printing of a message ends if and only if there is room for all its details
-/

namespace LatexPreview

/-- A segment takes something off a text. -/
theorem length_nextSegment_lt {width : Int} (hwidth : 0 < width) {u : Unwrapped} (hrest : u.rest ≠ []) :
    (nextSegment width u).2.rest.length < u.rest.length := by
  have hpos := List.length_pos_of_ne_nil hrest
  rw [nextSegment]
  dsimp only
  split
  · rw [List.length_drop]
    omega
  · rw [splitAtWidth, if_pos hwidth.le]
    dsimp only
    rw [List.length_drop]
    omega

theorem segments?_nil (width : Int) (fuel : Nat) {u : Unwrapped} (hrest : u.rest = []) :
    segments? width fuel u = some [] := by
  cases fuel with
  | zero => rw [segments?, if_pos (by simp [hrest])]
  | succ fuel => rw [segments?, if_pos (by simp [hrest])]

theorem segments?_succ (width : Int) (fuel : Nat) {u : Unwrapped} (hrest : u.rest ≠ []) :
    segments? width (fuel + 1) u =
      (segments? width fuel (nextSegment width u).2).map ((nextSegment width u).1 :: ·) := by
  rw [segments?, if_neg (by simpa using hrest)]

theorem exists_segments {width : Int} (hwidth : 0 < width) (fuel : Nat) (u : Unwrapped)
    (hfuel : u.rest.length ≤ fuel) : ∃ segments, segments? width fuel u = some segments := by
  induction fuel generalizing u with
  | zero => exact ⟨_, segments?_nil width 0 (List.eq_nil_of_length_eq_zero (Nat.le_zero.1 hfuel))⟩
  | succ fuel ih =>
    by_cases hrest : u.rest = []
    · exact ⟨_, segments?_nil width _ hrest⟩
    · have hless := length_nextSegment_lt hwidth hrest
      obtain ⟨segments, hsegments⟩ := ih (nextSegment width u).2 (by omega)
      rw [segments?_succ _ _ hrest, hsegments]
      exact ⟨_, rfl⟩

theorem exists_wrap {width : Int} (hwidth : 0 < width) (s : Text) :
    ∃ segments, wrap? width s = some segments := by
  rw [wrap?]
  split
  · exact ⟨_, rfl⟩
  · exact exists_segments hwidth _ _ le_rfl

/-! ## Segments without width -/

section Endless

variable {width : Int} {u : Unwrapped} {s : Text} {c : Char}

theorem ne_nil_of_getLast? (hlast : s.getLast? = some c) : s ≠ [] := by
  rintro rfl
  simp at hlast

/-- Without width, a step does not reach the end of a text. -/
theorem getLast?_nextSegment (hwidth : width ≤ 0) (hlast : u.rest.getLast? = some c) (hc : c ≠ '\n') :
    (nextSegment width u).2.rest.getLast? = some c := by
  have hne := ne_nil_of_getLast? hlast
  rw [nextSegment]
  dsimp only
  split
  · rename_i hnear
    -- Only an empty line fits, so that nothing but its end is taken off.
    have hline : u.rest.takeWhile (· != '\n') = [] := List.eq_nil_of_length_eq_zero (by omega)
    obtain ⟨d, r, hrest⟩ := List.exists_cons_of_ne_nil hne
    obtain rfl : d = '\n' := by
      by_contra hd
      simp [hrest, hd] at hline
    have hr : r ≠ [] := by
      rintro rfl
      exact hc (by simpa [hrest] using hlast.symm)
    rw [hline, hrest]
    rwa [hrest, List.getLast?_cons_of_ne_nil hr] at hlast
  · rw [splitAtWidth]
    dsimp only
    have hpos := List.length_pos_of_ne_nil hne
    rw [List.getLast?_drop, if_neg (by split <;> omega), hlast]

theorem segments?_endless (hwidth : width ≤ 0) (hc : c ≠ '\n') (fuel : Nat) (u : Unwrapped)
    (hlast : u.rest.getLast? = some c) : segments? width fuel u = none := by
  induction fuel generalizing u with
  | zero => simp [segments?, ne_nil_of_getLast? hlast]
  | succ fuel ih =>
    rw [segments?_succ _ _ (ne_nil_of_getLast? hlast), ih _ (getLast?_nextSegment hwidth hlast hc)]
    rfl

theorem length_segmentsAtMost (hwidth : width ≤ 0) (hc : c ≠ '\n') (n : Nat) (u : Unwrapped)
    (hlast : u.rest.getLast? = some c) : (segmentsAtMost width n u).length = n := by
  induction n generalizing u with
  | zero => rfl
  | succ n ih =>
    rw [segmentsAtMost, if_neg (by simpa using ne_nil_of_getLast? hlast), List.length_cons,
      ih _ (getLast?_nextSegment hwidth hlast hc)]

/-- Of a text that does not end with a line feed, all segments are found if and only if they have some
width, or there is nothing to find. -/
theorem exists_wrap_iff (hlast : s.getLast? ≠ some '\n') :
    (∃ segments, wrap? width s = some segments) ↔ s = [] ∨ 0 < width := by
  constructor
  · rintro ⟨segments, hsegments⟩
    by_contra hnot
    obtain ⟨hs, hwidth⟩ := not_or.1 hnot
    obtain ⟨c, hc⟩ := Option.isSome_iff_exists.1 (List.getLast?_isSome.2 hs)
    rw [wrap?, if_neg (by simpa using hs),
      segments?_endless (not_lt.1 hwidth) (fun h => hlast (h ▸ hc)) _ (.start s) hc] at hsegments
    exact absurd hsegments (by simp)
  · rintro (rfl | hwidth)
    · exact ⟨_, rfl⟩
    · exact exists_wrap hwidth s

/-- Without width there are as many segments of such a text as one may ask for. -/
theorem length_wrapAtMost (hlast : s.getLast? ≠ some '\n') (hs : s ≠ []) (hwidth : width ≤ 0)
    (limit : Nat) : (wrapAtMost limit width s).length = limit := by
  obtain ⟨c, hc⟩ := Option.isSome_iff_exists.1 (List.getLast?_isSome.2 hs)
  rw [wrapAtMost, if_neg (by simpa using hs)]
  exact length_segmentsAtMost hwidth (fun h => hlast (h ▸ hc)) limit (.start s) hc

end Endless

/-! ## Details -/

/-- The room for the lines of a detail in a frame of some width. -/
def Detail.room (d : Detail) (width : Int) : Int :=
  if d.numbered then width - lineNumberWidth - 1 else width

theorem getLast?_trimEnd_ne (s : Text) : s.trimEnd.getLast? ≠ some '\n' := by
  obtain ⟨-, -, -, hlast⟩ := Text.exists_trimEnd s
  intro hbreak
  exact absurd (hlast _ hbreak) (by decide)

theorem Detail.exists_console_iff (d : Detail) (width : Int) :
    (∃ text, d.console? width = some text) ↔ d.content.trimEnd = [] ∨ 0 < d.room width := by
  rw [← exists_wrap_iff (getLast?_trimEnd_ne d.content), Detail.console?, Detail.room]
  dsimp only
  split
  · simp [Option.map_eq_some_iff]
  · simp [Option.map_eq_some_iff]

theorem exists_mapM_iff {α β : Type} (f : α → Option β) (l : List α) :
    (∃ ys, l.mapM f = some ys) ↔ ∀ x ∈ l, ∃ y, f x = some y := by
  induction l with
  | nil => simp
  | cons x l ih =>
    rw [List.forall_mem_cons, ← ih, List.mapM_cons]
    cases f x with
    | none => simp
    | some y =>
      cases l.mapM f with
      | none => simp
      | some ys => simp

/-- A detail below another one. -/
def Detail.below? (d : Detail) (width : Int) : Option Text := do
  let lines ← d.console? width
  pure (frameLine "├─" "─┤" width ++ lines)

theorem framed?_cons (width : Int) (d : Detail) (more : List Detail) :
    framed? width (d :: more) = (d.console? width).bind fun first =>
      (more.mapM fun d : Detail => d.below? width).bind fun others =>
        some (frameLine "┌─" "─┐" width ++ first ++ others.flatten ++ frameLine "└─" "─┘" width) := rfl

theorem Detail.exists_below_iff (d : Detail) (width : Int) :
    (∃ text, d.below? width = some text) ↔ ∃ text, d.console? width = some text := by
  rw [Detail.below?]
  cases d.console? width with
  | none => simp
  | some lines => simp

theorem exists_framed_iff (width : Int) (details : List Detail) :
    (∃ text, framed? width details = some text) ↔ ∀ d ∈ details, ∃ text, d.console? width = some text := by
  cases details with
  | nil => simp [framed?]
  | cons d more =>
    have hmore := exists_mapM_iff (fun d : Detail => d.below? width) more
    simp only [Detail.exists_below_iff] at hmore
    rw [List.forall_mem_cons, ← hmore, framed?_cons]
    cases d.console? width with
    | none => simp
    | some first =>
      cases more.mapM fun d => d.below? width with
      | none => simp
      | some others => simp

/-! ## Messages -/

/-- The frame takes six columns of a terminal. -/
theorem Message.exists_console_iff (m : Message) (columns : Int) :
    (∃ text, m.console? columns = some text) ↔
      ∀ d ∈ m.details, ∃ text, d.console? (terminalWidth columns - 6) = some text := by
  rw [← exists_framed_iff, Message.console?]
  simp [Option.map_eq_some_iff]

/-- The printing of a message ends if and only if each of its details is blank or has room for its lines.
Else the lines of a detail go on for ever: there are as many of them as one may ask for. -/
theorem Message.console_ends_iff (m : Message) (columns : Int) :
    ((∃ text, m.console? columns = some text) ↔
      ∀ d ∈ m.details, d.content.trimEnd = [] ∨ 0 < d.room (terminalWidth columns - 6)) ∧
    ∀ d ∈ m.details, d.content.trimEnd ≠ [] → d.room (terminalWidth columns - 6) ≤ 0 →
      ∀ limit, (wrapAtMost limit (d.room (terminalWidth columns - 6)) d.content.trimEnd).length = limit := by
  refine ⟨?_, fun d _ hcontent hroom limit => ?_⟩
  · rw [m.exists_console_iff columns]
    simp only [Detail.exists_console_iff]
  · exact length_wrapAtMost (getLast?_trimEnd_ne d.content) hcontent hroom limit

theorem Message.console_ends_iff_narrow : let m : Message := .warning [] [] ['x'] []
    (∃ text, m.console? 12 = some text) ∧
      ∀ limit, (wrapAtMost limit 0 ['x']).length = limit := by
  intro m
  have hroom : ∀ d ∈ m.details, d.content.trimEnd = [] ∨ 0 < d.room (terminalWidth 12 - 6) := by decide
  have hlines : (Detail.code ['x'] (some 2) []).content.trimEnd ≠ [] := by decide
  exact ⟨(m.console_ends_iff 12).1.2 hroom,
    (m.console_ends_iff 11).2 (.code ['x'] (some 2) []) List.mem_cons_self hlines (by decide)⟩

/-- On a terminal of eleven columns there is no room behind the number of a line. -/
theorem numbered_line_without_room :
    ¬ ∀ (m : Message) (columns : Int), 1 ≤ columns → ∃ text, m.console? columns = some text := by
  intro h
  obtain ⟨text, htext⟩ := h (.warning [] [] ['x'] []) 11 (by decide)
  have hnone : (Message.warning [] [] ['x'] []).console? 11 = none := by decide
  rw [hnone] at htext
  cases htext

end LatexPreview
