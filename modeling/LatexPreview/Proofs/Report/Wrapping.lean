import Mathlib
import LatexPreview.Proofs.Report.Printing
import LatexPreview.Proofs.Text.Lines

/-!
# Wrapped lines

A text is printed line by line, and a line that is too long for the width is broken.  Nothing of the text
is lost, no line is broken earlier than it has to be, and no line is followed by an empty segment of its own.

* `printedLines` are the lines of a text, `BrokenInto` tells how a line is broken
* `nextSegment_cases`: what one step takes off a text
* `WrappedFrom`: the segments of lines with consecutive numbers, by `wrappedFrom_segments`
* `wrap_keeps_lines`: a text of any length is wrapped into its lines
-/

namespace LatexPreview

/-! ## Lines -/

/-- The lines that are printed of a text: those between line feeds, but not an empty one behind the last
line feed.  The empty text is one empty line. -/
def printedLines (s : Text) : List Text :=
  if s ≠ [] ∧ (rawLines s).getLast? = some [] then (rawLines s).dropLast else rawLines s

section Lines

variable {l r s : Text}

theorem printedLines_of_not_mem (h : '\n' ∉ s) : printedLines s = [s] := by
  rw [printedLines, rawLines_of_not_mem h, if_neg (by simp)]

theorem printedLines_finished (h : '\n' ∉ l) : printedLines (l ++ ['\n']) = [l] := by
  have hraw : rawLines (l ++ ['\n']) = [l, []] := rawLines_line h []
  rw [printedLines, hraw, if_pos (by simp)]
  rfl

theorem printedLines_line (h : '\n' ∉ l) (hr : r ≠ []) :
    printedLines (l ++ '\n' :: r) = l :: printedLines r := by
  obtain ⟨first, more, hraw⟩ := exists_rawLines_cons r
  rw [printedLines, printedLines, rawLines_line h, hraw, List.getLast?_cons_cons]
  by_cases hlast : (first :: more).getLast? = some []
  · rw [if_pos ⟨by simp, hlast⟩, if_pos ⟨hr, hlast⟩, List.dropLast_cons_cons]
  · rw [if_neg fun h => hlast h.2, if_neg fun h => hlast h.2]

/-- What stands in front of a text without ending a line belongs to its first line. -/
theorem exists_printedLines_append (hl : '\n' ∉ l) (hs : s ≠ []) : ∃ first more,
    printedLines s = first :: more ∧ printedLines (l ++ s) = (l ++ first) :: more := by
  rcases exists_lines s with hno | ⟨l', r, rfl, hl'⟩
  · exact ⟨s, [], printedLines_of_not_mem hno, printedLines_of_not_mem (by simp [hl, hno])⟩
  · have hfront : '\n' ∉ l ++ l' := by simp [hl, hl']
    rw [← List.append_assoc]
    by_cases hr : r = []
    · rw [hr]
      exact ⟨l', [], printedLines_finished hl', printedLines_finished hfront⟩
    · exact ⟨l', printedLines r, printedLines_line hl' hr, printedLines_line hfront hr⟩

/-- If the last line is not finished, no line is left out. -/
theorem printedLines_unfinished (hlast : s.getLast? ≠ some '\n') : printedLines s = rawLines s := by
  rw [printedLines, if_neg]
  rintro ⟨hs, hempty⟩
  exact (getLast?_of_rawLines hempty).elim hs hlast

theorem first_ne_nil {first : Text} {more : List Text} (hs : s ≠ []) (hhead : s.head? ≠ some '\n')
    (hlines : printedLines s = first :: more) : first ≠ [] := by
  obtain ⟨c, s, rfl⟩ := List.exists_cons_of_ne_nil hs
  have hc : '\n' ∉ [c] := by simpa using fun h : '\n' = c => hhead (h ▸ rfl)
  by_cases hrest : s = []
  · rw [hrest, printedLines_of_not_mem hc, List.cons_eq_cons] at hlines
    exact hlines.1 ▸ List.cons_ne_nil c []
  · obtain ⟨next, others, -, happend⟩ := exists_printedLines_append hc hrest
    have hfirst := (List.cons_eq_cons.1 (happend.symm.trans hlines)).1
    exact hfirst ▸ List.cons_ne_nil c next

end Lines

/-! ## How a line is broken -/

/-- The segments of a line, or of what is left of it: the first one starts the line if nothing of it has
been printed.  All are as long as the width allows, and none is empty unless the line is. -/
structure BrokenInto (width : Int) (isStart : Bool) (line : Text) (segments : List Segment) : Prop where
  text : segments.flatMap (·.text) = line
  starts : segments.map (·.isStart) = isStart :: List.replicate (segments.length - 1) false
  length_le : ∀ segment ∈ segments, (segment.text.length : Int) ≤ width
  full : ∀ segment ∈ segments.dropLast, (segment.text.length : Int) = width
  text_ne_nil : line ≠ [] → ∀ segment ∈ segments, segment.text ≠ []

namespace BrokenInto

variable {width : Int} {isStart : Bool} {line front : Text} {segments : List Segment}

theorem ne_nil (h : BrokenInto width isStart line segments) : segments ≠ [] := by
  rintro rfl
  exact absurd h.starts (by simp)

theorem whole (n : Nat) (hline : (line.length : Int) ≤ width) :
    BrokenInto width isStart line [⟨n, isStart, line⟩] where
  text := by simp
  starts := by simp
  length_le := by simpa using hline
  full := by simp
  text_ne_nil := by simp

theorem cons (n : Nat) (hwidth : 0 < width) (hfront : (front.length : Int) = width) (hline : line ≠ [])
    (h : BrokenInto width false line segments) :
    BrokenInto width isStart (front ++ line) (⟨n, isStart, front⟩ :: segments) where
  text := by rw [List.flatMap_cons, h.text]
  starts := by
    have hlength : segments.length = segments.length - 1 + 1 :=
      (Nat.sub_add_cancel (List.length_pos_of_ne_nil h.ne_nil)).symm
    rw [List.map_cons, h.starts, List.length_cons, Nat.add_sub_cancel, ← List.replicate_succ, ← hlength]
  length_le := by
    intro segment hsegment
    rcases List.mem_cons.1 hsegment with rfl | hlater
    · exact hfront.le
    · exact h.length_le segment hlater
  full := by
    intro segment hsegment
    rw [List.dropLast_cons_of_ne_nil h.ne_nil] at hsegment
    rcases List.mem_cons.1 hsegment with rfl | hlater
    · exact hfront
    · exact h.full segment hlater
  text_ne_nil := by
    intro _ segment hsegment
    rcases List.mem_cons.1 hsegment with rfl | hlater
    · refine List.ne_nil_of_length_pos ?_
      dsimp only
      omega
    · exact h.text_ne_nil hline segment hlater

/-- A line that fits is not broken. -/
theorem eq_whole (hwidth : 0 < width) (h : BrokenInto width isStart line segments)
    (hline : (line.length : Int) ≤ width) {n : Nat} (hnumber : ∀ segment ∈ segments, segment.line = n) :
    segments = [⟨n, isStart, line⟩] := by
  obtain ⟨segment, more, rfl⟩ := List.exists_cons_of_ne_nil h.ne_nil
  obtain ⟨htext, hstarts, hlength, hfull, hne⟩ := h
  rw [List.flatMap_cons] at htext
  have hmore : more = [] := by
    by_contra hmore
    obtain ⟨next, others, rfl⟩ := List.exists_cons_of_ne_nil hmore
    have hfirst : (segment.text.length : Int) = width := hfull segment (by simp)
    have hempty : line ≠ [] := by
      rintro rfl
      simp only [List.append_eq_nil_iff] at htext
      simp [htext.1] at hfirst
      omega
    have hnext := List.length_pos_of_ne_nil (hne hempty next (by simp))
    rw [← htext, List.flatMap_cons, List.length_append, List.length_append] at hline
    omega
  rw [hmore] at htext hstarts ⊢
  obtain ⟨number, start, text⟩ := segment
  obtain rfl : text = line := by simpa using htext
  obtain rfl : start = isStart := by simpa using hstarts
  obtain rfl : number = n := hnumber _ List.mem_cons_self
  rfl

end BrokenInto

/-! ## Steps -/

section Steps

variable {u : Unwrapped} {l r : Text}

theorem takeWhile_line (hl : '\n' ∉ l) (r : Text) : (l ++ '\n' :: r).takeWhile (· != '\n') = l := by
  rw [List.takeWhile_append_of_pos fun c hc => by simpa using fun h : c = '\n' => hl (h ▸ hc)]
  simp

/-- A line whose end is near enough is taken off with its end. -/
theorem nextSegment_line {width : Int} (hrest : u.rest = l ++ '\n' :: r) (hl : '\n' ∉ l)
    (hfits : (l.length : Int) ≤ width) :
    nextSegment width u = (⟨u.line, u.isStart, l⟩, ⟨u.line + 1, true, r⟩) := by
  rw [nextSegment]
  dsimp only
  rw [hrest, takeWhile_line hl, if_pos ⟨by simp, hfits⟩, List.drop_append]
  simp

/-- If no line ends near enough, as much is taken off as the width allows. -/
theorem nextSegment_break (u : Unwrapped) (width : Nat)
    (hfar : '\n' ∉ u.rest ∨ ∃ l r, u.rest = l ++ '\n' :: r ∧ '\n' ∉ l ∧ width < l.length) :
    nextSegment width u =
      (⟨u.line, u.isStart, u.rest.take width⟩, ⟨u.line, false, u.rest.drop width⟩) := by
  have hbreak : ¬ ((u.rest.takeWhile (· != '\n')).length < u.rest.length ∧
      ((u.rest.takeWhile (· != '\n')).length : Int) ≤ width) := by
    rcases hfar with hno | ⟨l, r, hrest, hl, hfar⟩
    · rw [List.takeWhile_eq_self_iff.2 fun c hc => by
        simpa using fun h : c = '\n' => hno (h ▸ hc)]
      simp
    · rw [hrest, takeWhile_line hl]
      omega
  rw [nextSegment]
  dsimp only
  rw [if_neg hbreak, splitAtWidth, if_pos (by omega)]
  rfl

/-- One step takes a line with its end off a text, or a last line without one, or as much of a longer
line as the width allows. -/
theorem nextSegment_cases (width : Nat) (u : Unwrapped) :
    (∃ l r, u.rest = l ++ '\n' :: r ∧ '\n' ∉ l ∧ l.length ≤ width ∧
      nextSegment width u = (⟨u.line, u.isStart, l⟩, ⟨u.line + 1, true, r⟩)) ∨
    ('\n' ∉ u.rest ∧ u.rest.length ≤ width ∧
      nextSegment width u = (⟨u.line, u.isStart, u.rest⟩, ⟨u.line, false, []⟩)) ∨
    (∃ front r, u.rest = front ++ r ∧ '\n' ∉ front ∧ front.length = width ∧ r ≠ [] ∧
      r.head? ≠ some '\n' ∧
      nextSegment width u = (⟨u.line, u.isStart, front⟩, ⟨u.line, false, r⟩)) := by
  have hsplit : u.rest = u.rest.take width ++ u.rest.drop width := (List.take_append_drop _ _).symm
  rcases exists_lines u.rest with hno | ⟨l, r, hrest, hl⟩
  · have hnext := nextSegment_break u width (.inl hno)
    by_cases hfits : u.rest.length ≤ width
    · rw [List.take_of_length_le hfits, List.drop_eq_nil_of_le hfits] at hnext
      exact .inr (.inl ⟨hno, hfits, hnext⟩)
    · refine .inr (.inr ⟨_, _, hsplit, fun h => hno (List.mem_of_mem_take h), ?_, ?_, fun h => ?_, hnext⟩)
      · rw [List.length_take]
        omega
      · rw [Ne, List.drop_eq_nil_iff]
        omega
      · exact hno (List.mem_of_mem_drop (List.mem_of_head? h))
  · by_cases hfits : l.length ≤ width
    · exact .inl ⟨l, r, hrest, hl, hfits, nextSegment_line hrest hl (by omega)⟩
    · have hnext := nextSegment_break u width (.inr ⟨l, r, hrest, hl, not_le.1 hfits⟩)
      have htake : u.rest.take width = l.take width := by
        rw [hrest, List.take_append_of_le_length (by omega)]
      have hdrop : u.rest.drop width = l.drop width ++ '\n' :: r := by
        rw [hrest, List.drop_append_of_le_length (by omega)]
      refine .inr (.inr ⟨_, _, hsplit, ?_, ?_, ?_, fun h => ?_, hnext⟩)
      · rw [htake]
        exact fun h => hl (List.mem_of_mem_take h)
      · rw [htake, List.length_take]
        omega
      · simp [hdrop]
      · have hne : l.drop width ≠ [] := by
          rw [Ne, List.drop_eq_nil_iff]
          omega
        rw [hdrop, List.head?_append_of_ne_nil _ hne] at h
        exact hl (List.mem_of_mem_drop (List.mem_of_head? h))

end Steps

/-! ## Runs -/

/-- The segments of lines with consecutive numbers: each line starts with a segment of its own. -/
inductive WrappedFrom (width : Int) : Nat → List Text → List Segment → Prop
  | nil (n : Nat) : WrappedFrom width n [] []
  | cons {n : Nat} {line : Text} {lines : List Text} {group more : List Segment}
      (hgroup : BrokenInto width true line group) (hnumber : ∀ segment ∈ group, segment.line = n)
      (hmore : WrappedFrom width (n + 1) lines more) : WrappedFrom width n (line :: lines) (group ++ more)

/-- A run wraps what is left of a text: first what is left of the line it stands in, then the others. -/
theorem wrappedFrom_segments {width : Nat} (hwidth : 0 < width) (fuel : Nat) (u : Unwrapped)
    {segments : List Segment} (hsegments : segments? width fuel u = some segments) (hrest : u.rest ≠ []) :
    ∃ line lines group more, printedLines u.rest = line :: lines ∧ segments = group ++ more ∧
      BrokenInto width u.isStart line group ∧ (∀ segment ∈ group, segment.line = u.line) ∧
      WrappedFrom width (u.line + 1) lines more := by
  induction fuel generalizing u segments with
  | zero => simp [segments?, hrest] at hsegments
  | succ fuel ih =>
    rw [segments?_succ _ _ hrest] at hsegments
    obtain ⟨later, hlater, rfl⟩ := Option.map_eq_some_iff.1 hsegments
    rcases nextSegment_cases width u with ⟨l, r, hu, hl, hfits, hnext⟩ | ⟨hno, hfits, hnext⟩ |
      ⟨front, r, hu, hfront, hlength, hr, hhead, hnext⟩
    · -- The line is finished: what follows starts a line, or there is nothing left.
      rw [hnext] at hlater ⊢
      have hwhole : BrokenInto width u.isStart l [⟨u.line, u.isStart, l⟩] := .whole _ (by omega)
      by_cases hr : r = []
      · rw [segments?_nil _ _ hr] at hlater
        obtain rfl := Option.some.inj hlater
        exact ⟨l, [], _, [], by rw [hu, hr, printedLines_finished hl], rfl, hwhole, by simp, .nil _⟩
      · obtain ⟨line, lines, group, more, hlines, rfl, hgroup, hnumber, hmore⟩ := ih _ hlater hr
        exact ⟨l, line :: lines, _, group ++ more, by rw [hu, printedLines_line hl hr, hlines], rfl, hwhole,
          by simp, .cons hgroup hnumber hmore⟩
    · rw [hnext, segments?_nil _ _ rfl] at hlater
      obtain rfl := Option.some.inj hlater
      rw [hnext]
      exact ⟨u.rest, [], _, [], printedLines_of_not_mem hno, rfl, .whole _ (by omega), by simp, .nil _⟩
    · -- The line goes on: its next segments are those of what is left of it.
      rw [hnext] at hlater ⊢
      obtain ⟨line, lines, group, more, hlines, rfl, hgroup, hnumber, hmore⟩ := ih _ hlater hr
      obtain ⟨first, others, hr', happend⟩ := exists_printedLines_append hfront hr
      rw [hlines, List.cons_eq_cons] at hr'
      obtain ⟨rfl, rfl⟩ := hr'
      exact ⟨front ++ line, lines, _ :: group, more, by rw [hu, happend], rfl,
        hgroup.cons _ (by omega) (by omega) (first_ne_nil hr hhead hlines), by simpa using hnumber, hmore⟩

namespace WrappedFrom

variable {width : Int} {k : Nat} {lines : List Text} {segments : List Segment}

theorem line_bounds (h : WrappedFrom width k lines segments) {segment : Segment} (hs : segment ∈ segments) :
    k ≤ segment.line ∧ segment.line < k + lines.length := by
  induction h with
  | nil n => exact absurd hs (by simp)
  | cons hgroup hnumber _ ih =>
    rw [List.length_cons]
    rcases List.mem_append.1 hs with hs | hs
    · have := hnumber segment hs
      omega
    · have := ih hs
      omega

/-- The lines follow one another. -/
theorem pairwise_line (h : WrappedFrom width k lines segments) :
    (segments.map (·.line)).Pairwise (· ≤ ·) := by
  induction h with
  | nil n => exact .nil
  | @cons n line lines group more hgroup hnumber hmore ih =>
    have hfirst : group.map (·.line) = List.replicate group.length n :=
      List.map_eq_replicate_iff.2 hnumber
    rw [List.map_append, List.pairwise_append, hfirst]
    refine ⟨List.pairwise_replicate.2 (.inr le_rfl), ih, fun a ha b hb => ?_⟩
    obtain ⟨segment, hsegment, rfl⟩ := List.mem_map.1 hb
    have := (hmore.line_bounds hsegment).1
    have := List.eq_of_mem_replicate ha
    omega

/-- The segments with the number of a line are the ones it is broken into. -/
theorem filter_line (h : WrappedFrom width k lines segments) {i : Nat} {line : Text}
    (hline : lines[i]? = some line) :
    BrokenInto width true line (segments.filter (·.line = k + i)) := by
  induction h generalizing i with
  | nil n => simp at hline
  | @cons n first lines group more hgroup hnumber hmore ih =>
    rw [List.filter_append]
    cases i with
    | zero =>
      obtain rfl : first = line := by simpa using hline
      have hall : group.filter (·.line = n + 0) = group :=
        List.filter_eq_self.2 fun segment hs => by simpa using hnumber segment hs
      have hnone : more.filter (·.line = n + 0) = [] := List.filter_eq_nil_iff.2 fun segment hs => by
        have := (hmore.line_bounds hs).1
        simp
        omega
      rwa [hall, hnone, List.append_nil]
    | succ i =>
      have hnone : group.filter (·.line = n + (i + 1)) = [] :=
        List.filter_eq_nil_iff.2 fun segment hs => by
          have := hnumber segment hs
          simp
          omega
      have hlater := ih (i := i) (by simpa using hline)
      rwa [hnone, List.nil_append, show n + (i + 1) = n + 1 + i by omega]

/-- Each line has a segment. -/
theorem mem_map_line (h : WrappedFrom width k lines segments) {n : Nat} :
    n ∈ segments.map (·.line) ↔ k ≤ n ∧ n < k + lines.length := by
  constructor
  · intro hn
    obtain ⟨segment, hs, rfl⟩ := List.mem_map.1 hn
    exact h.line_bounds hs
  · rintro ⟨hk, hn⟩
    obtain ⟨i, rfl⟩ := Nat.exists_eq_add_of_le hk
    have hfilter := h.filter_line (List.getElem?_eq_getElem (show i < lines.length by omega))
    obtain ⟨segment, more, hsegment⟩ := List.exists_cons_of_ne_nil hfilter.ne_nil
    have hmem : segment ∈ segments.filter (·.line = k + i) := hsegment ▸ List.mem_cons_self
    obtain ⟨hs, hline⟩ := List.mem_filter.1 hmem
    exact List.mem_map.2 ⟨segment, hs, by simpa using hline⟩

/-- Lines that fit are not broken. -/
theorem eq_whole (hwidth : 0 < width) (h : WrappedFrom width k lines segments)
    (hlines : ∀ line ∈ lines, (line.length : Int) ≤ width) :
    segments = (lines.zipIdx k).map fun (line, n) => ⟨n, true, line⟩ := by
  induction h with
  | nil n => rfl
  | cons hgroup hnumber hmore ih =>
    rw [hgroup.eq_whole hwidth (hlines _ List.mem_cons_self) hnumber,
      ih fun line hline => hlines line (List.mem_cons_of_mem _ hline)]
    rfl

end WrappedFrom

/-- With any room, a text is wrapped into its lines. -/
theorem exists_wrappedFrom {width : Int} (hwidth : 0 < width) (s : Text) : ∃ segments,
    wrap? width s = some segments ∧ WrappedFrom width 1 (printedLines s) segments := by
  obtain ⟨w, rfl⟩ := Int.eq_ofNat_of_zero_le hwidth.le
  obtain ⟨segments, hwrap⟩ := exists_wrap hwidth s
  refine ⟨segments, hwrap, ?_⟩
  by_cases hs : s = []
  · rw [wrap?, if_pos (by simp [hs])] at hwrap
    obtain rfl := Option.some.inj hwrap
    have hempty : BrokenInto w true [] [⟨1, true, []⟩] := .whole 1 (by simp)
    rw [hs, printedLines_of_not_mem (by simp)]
    exact .cons hempty (by simp) (.nil 2)
  · rw [wrap?, if_neg (by simpa using hs)] at hwrap
    obtain ⟨line, lines, group, more, hlines, rfl, hgroup, hnumber, hmore⟩ :=
      wrappedFrom_segments (by omega) _ (.start s) hwrap hs
    rw [show printedLines s = line :: lines from hlines]
    exact .cons hgroup hnumber hmore

/-- A text is wrapped into its lines: the segments have the numbers of all lines in order, and those with
the number of a line are the ones that it is broken into. -/
theorem wrap_keeps_lines {width : Int} (hwidth : 1 ≤ width) (s : Text) :
    ∃ segments, wrap? width s = some segments ∧
      (segments.map (·.line)).Pairwise (· ≤ ·) ∧
      (∀ n, n ∈ segments.map (·.line) ↔ 1 ≤ n ∧ n ≤ (printedLines s).length) ∧
      ∀ (i : Nat) (line : Text), (printedLines s)[i]? = some line →
        BrokenInto width true line (segments.filter (·.line = i + 1)) := by
  obtain ⟨segments, hwrap, hlines⟩ := exists_wrappedFrom (show 0 < width by omega) s
  refine ⟨segments, hwrap, hlines.pairwise_line, fun n => ?_, fun i line hline => ?_⟩
  · rw [hlines.mem_map_line]
    omega
  · rw [Nat.add_comm]
    exact hlines.filter_line hline

theorem wrap_keeps_lines_twice_as_long : (1 : Int) ≤ 5 ∧
    ∃ segments, wrap? 5 "abcdefghij\nxy\n".toList = some segments ∧
      BrokenInto 5 true "abcdefghij".toList (segments.filter (·.line = 1)) ∧
      BrokenInto 5 true "xy".toList (segments.filter (·.line = 2)) := by
  have hwidth : (1 : Int) ≤ 5 := by decide
  obtain ⟨segments, hwrap, -, -, hlines⟩ := wrap_keeps_lines hwidth "abcdefghij\nxy\n".toList
  exact ⟨hwidth, segments, hwrap, hlines 0 _ (by decide), hlines 1 _ (by decide)⟩

end LatexPreview
