import Mathlib
import LatexPreview.Proofs.Report.Wrapping
import LatexPreview.Report.Panel

/-!
# Listings on the console and on a page

A listing is printed on the console and written on a page, each time with the numbers of its lines.  The
console breaks it at line feeds only, and prints one line of an empty listing; a page breaks it at
every character that ends a line in some system, and shows nothing of an empty listing.

* `Detail.consoleLines?` are the numbered lines that the console shows, by `Detail.console?_of_fits`
* `Detail.panelLines` are those that a page shows, by `Detail.panelText_of_numbered`
* `listings_agree_iff`: for which listings they are always the same
-/

namespace LatexPreview

open Text

/-! ## Numbered lines -/

section Numbering

variable {a b : List Text} {k : Nat}

theorem zipIdx_inj (h : ∀ line, line ∈ a.zipIdx k ↔ line ∈ b.zipIdx k) : a = b := by
  refine List.ext_getElem? fun i => Option.ext fun line => ?_
  have hline := h (line, k + i)
  rw [List.mk_mem_zipIdx_iff_le_and_getElem?_sub, List.mk_mem_zipIdx_iff_le_and_getElem?_sub,
    Nat.add_sub_cancel_left] at hline
  simpa using hline

end Numbering

namespace Detail

variable {d : Detail} {width : Int}

/-- The lines of a listing that a page shows, with their numbers. -/
def panelLines (d : Detail) : List (Text × Nat) :=
  (d.content.trimEnd.lines.zipIdx 1).filter (d.isShown ·.2)

theorem panelText_of_numbered (hnumbered : d.numbered = true) :
    d.panelText = Text.join ['\n'] (d.panelLines.map numberedLine) := by
  rw [panelText, if_pos hnumbered, panelLines]

/-- The lines of a listing that the console shows, with their numbers, in a frame of some width. -/
def consoleLines? (d : Detail) (width : Int) : Option (List (Text × Nat)) :=
  (wrap? (d.room width) d.content.trimEnd).map fun segments =>
    (segments.filter (d.isShown ·.line)).map fun segment => (segment.text, segment.line)

/-- No line is too long for a frame of some width. -/
def Fits (d : Detail) (width : Int) : Prop :=
  ∀ line ∈ rawLines d.content.trimEnd, (line.length : Int) ≤ d.room width

/-- A line that is not broken. -/
def wholeLine (line : Text × Nat) : Segment := ⟨line.2, true, line.1⟩

/-- In a frame that no line is too long for, nothing is broken. -/
theorem wrap_of_fits (hfits : d.Fits width) : wrap? (d.room width) d.content.trimEnd =
    some (((rawLines d.content.trimEnd).zipIdx 1).map wholeLine) := by
  have hlast := getLast?_trimEnd_ne d.content
  by_cases hempty : d.content.trimEnd = []
  · rw [hempty]
    rfl
  · have hroom : 0 < d.room width := by
      obtain ⟨c, hc⟩ := Option.isSome_iff_exists.1 (List.getLast?_isSome.2 hempty)
      obtain ⟨line, hline, hmem⟩ := exists_mem_rawLines (List.mem_of_getLast? hc) fun h => hlast (h ▸ hc)
      have := hfits line hline
      have := List.length_pos_of_mem hmem
      omega
    obtain ⟨segments, hwrap, hlines⟩ := exists_wrappedFrom hroom d.content.trimEnd
    rw [printedLines_unfinished hlast] at hlines
    rw [hwrap, hlines.eq_whole hroom hfits]
    rfl

theorem consoleLines?_of_fits (hfits : d.Fits width) : d.consoleLines? width =
    some (((rawLines d.content.trimEnd).zipIdx 1).filter (d.isShown ·.2)) := by
  rw [consoleLines?, wrap_of_fits hfits, Option.map_some, List.filter_map, List.map_map]
  exact congrArg some (List.map_id'' (fun _ => rfl) _)

/-- What is printed of a listing whose lines fit are the lines that the console shows. -/
theorem console?_of_fits (hnumbered : d.numbered = true) (hfits : d.Fits width) :
    d.console? width = (d.consoleLines? width).map fun lines =>
      lines.flatMap fun line => codeLine (d.room width) d (wholeLine line) := by
  have hroom : d.room width = width - lineNumberWidth - 1 := by rw [room, if_pos hnumbered]
  rw [consoleLines?_of_fits hfits, console?]
  dsimp only
  rw [if_pos hnumbered, ← hroom, wrap_of_fits hfits, Option.map_some, List.filter_map, List.flatMap_map]
  rfl

end Detail

/-! ## Agreement -/

/-- There are terminals that no line is too long for. -/
theorem exists_fits (d : Detail) : ∃ columns : Int, d.Fits (terminalWidth columns - 6) := by
  let total : Nat := ((rawLines d.content.trimEnd).map List.length).sum
  refine ⟨total + 12, fun line hline => ?_⟩
  have hline : line.length ≤ total := List.single_le_sum (by simp) _ (List.mem_map_of_mem hline)
  have hcolumns : terminalWidth (total + 12 : Int) = total + 12 := if_neg (by omega)
  rw [Detail.room, hcolumns, lineNumberWidth]
  split <;> omega

/-- For any bound and highlighted lines, and any terminal that no line is too long for, the console and the
page show the same numbered lines of a listing, if and only if something is to be shown, and nothing but
line feeds ends a line of it.  They print these lines, and nothing else. -/
theorem listings_agree_iff (content : Text) :
    (∀ d : Detail, d.content = content → d.numbered = true → ∀ columns : Int,
      d.Fits (terminalWidth columns - 6) →
        d.panelText = Text.join ['\n'] (d.panelLines.map numberedLine) ∧
        ∃ shown, d.consoleLines? (terminalWidth columns - 6) = some shown ∧
          d.console? (terminalWidth columns - 6) = some (shown.flatMap fun line =>
            codeLine (d.room (terminalWidth columns - 6)) d (Detail.wholeLine line))) ∧
    ((∀ d : Detail, d.content = content → d.numbered = true → ∀ columns : Int,
      d.Fits (terminalWidth columns - 6) →
        ∃ shown, d.consoleLines? (terminalWidth columns - 6) = some shown ∧
          ∀ line, line ∈ shown ↔ line ∈ d.panelLines) ↔
      content.trimEnd ≠ [] ∧ ∀ c ∈ content.trimEnd, endsLine c = true → c = '\n') := by
  refine ⟨?_, ?_⟩
  · rintro d rfl hnumbered columns hfits
    refine ⟨Detail.panelText_of_numbered hnumbered, _, Detail.consoleLines?_of_fits hfits, ?_⟩
    rw [Detail.console?_of_fits hnumbered hfits, Detail.consoleLines?_of_fits hfits, Option.map_some]
  · rw [← lines_eq_rawLines_iff (getLast?_trimEnd_ne content)]
    constructor
    · intro hagree
      obtain ⟨columns, hfits⟩ := exists_fits (.code content none [])
      obtain ⟨shown, hshown, hlines⟩ := hagree (.code content none []) rfl rfl columns hfits
      -- Without a bound all lines are shown, so that agreement is about the whole listing.
      have hall : ∀ lines : List (Text × Nat),
          lines.filter (Detail.isShown (.code content none []) ·.2) = lines :=
        fun lines => List.filter_eq_self.2 fun _ _ => rfl
      rw [Detail.consoleLines?_of_fits hfits, hall] at hshown
      obtain rfl := Option.some.inj hshown
      rw [Detail.panelLines, hall] at hlines
      exact (zipIdx_inj hlines).symm
    · rintro hsame d rfl - columns hfits
      refine ⟨_, Detail.consoleLines?_of_fits hfits, fun line => ?_⟩
      rw [Detail.panelLines, hsame]

/-- A listing of two lines, on a terminal of forty columns. -/
theorem listings_agree_iff_two_lines : ∃ shown,
    (Detail.code "a\nb".toList (some 2) [2]).consoleLines? 34 = some shown ∧
      ∀ line, line ∈ shown ↔ line ∈ (Detail.code "a\nb".toList (some 2) [2]).panelLines := by
  have hcontent : trimEnd "a\nb".toList ≠ [] ∧
      ∀ c ∈ trimEnd "a\nb".toList, endsLine c = true → c = '\n' :=
    (lines_eq_rawLines_iff (getLast?_trimEnd_ne _)).1 (by decide)
  have hfits : (Detail.code "a\nb".toList (some 2) [2]).Fits (terminalWidth 40 - 6) := by
    show ∀ line ∈ _, _
    decide
  exact (listings_agree_iff "a\nb".toList).2.2 hcontent _ rfl rfl 40 hfits

/-- A form feed ends a line on a page, but not on the console. -/
theorem form_feed_divides_line_of_panel :
    ¬ ∀ d : Detail, d.numbered = true → ∀ columns : Int, d.Fits (terminalWidth columns - 6) →
      ∃ shown, d.consoleLines? (terminalWidth columns - 6) = some shown ∧
        ∀ line, line ∈ shown ↔ line ∈ d.panelLines := by
  intro h
  have hfits : (Detail.code "a\x0cb".toList none []).Fits (terminalWidth 40 - 6) := by
    show ∀ line ∈ _, _
    decide
  obtain ⟨shown, hshown, hlines⟩ := h _ rfl 40 hfits
  have hconsole : (Detail.code "a\x0cb".toList none []).consoleLines? (terminalWidth 40 - 6) =
      some [("a\x0cb".toList, 1)] := by decide
  obtain rfl := Option.some.inj (hconsole.symm.trans hshown)
  exact absurd ((hlines ("b".toList, 2)).2 (by decide)) (by decide)

end LatexPreview
