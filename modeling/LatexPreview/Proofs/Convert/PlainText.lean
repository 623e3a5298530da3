import Mathlib
import LatexPreview.Proofs.Convert.BlankLines
import LatexPreview.Proofs.Convert.Rewording
import LatexPreview.Proofs.Convert.Untouched
import LatexPreview.Proofs.Placeholder.Rounds

/-!
# Plain text

A text without commands and without math has only paragraphs.

* `paragraphParts_eq`: without tokens, its parts are those between blank lines
* `resolve_empty`: without blocks, nothing is put back
* `convert_plain`: each group of lines becomes a paragraph, and there is nothing else
-/

namespace LatexPreview

open Pattern

/-! ## Parts -/

namespace Pattern

/-- An alternative that matches nowhere may be left out. -/
theorem first?_alt {p q : Pattern} {b : Option Char} {s : Text}
    (h : ∀ x y, s = x ++ y → p.at? (x.getLast?.or b) y = none) :
    (alt p q).first? b s = q.first? b s := by
  have hat : ∀ {b s}, p.at? b s = none → (alt p q).at? b s = q.at? b s := by
    intro b s hnone
    rw [at?, run_alt, show p.run ⟨b, s, []⟩ some = none from hnone, Option.none_or, at?]
  induction s generalizing b with
  | nil =>
    have hfront : p.at? b [] = none := h [] [] rfl
    rw [first?, first?, hat hfront]
  | cons c s ih =>
    have hlater : (alt p q).first? (some c) s = q.first? (some c) s := by
      refine ih fun x y hs => ?_
      have hnone := h (c :: x) y (by rw [hs]; rfl)
      rwa [← List.singleton_append, getLast?_append_or] at hnone
    have hfront : p.at? b (c :: s) = none := h [] (c :: s) rfl
    rw [first?, first?, hat hfront, hlater]

theorem cutAtMost_alt {p q : Pattern} {n : Nat} {b : Option Char} {s : Text}
    (h : ∀ x y, s = x ++ y → p.at? (x.getLast?.or b) y = none) :
    (alt p q).cutAtMost n b s = q.cutAtMost n b s := by
  induction n generalizing b s with
  | zero => rfl
  | succ n ih =>
    rw [cutAtMost, cutAtMost, first?_alt h]
    cases hfirst : q.first? b s with
    | none => rfl
    | some hit =>
      obtain ⟨hs, hat, -⟩ := first?_eq_some hfirst
      have hlater : ∀ x y, hit.stop.rest = x ++ y →
          p.at? (x.getLast?.or hit.stop.before) y = none := by
        intro x y hrest
        have hnone := h (hit.gap ++ hit.matched ++ x) y (by rw [hs, hrest]; simp)
        rwa [getLast?_append_or, getLast?_append_or,
          ← (matches_of_at? hat).before_eq rfl] at hnone
      simp only [ih hlater]

/-- What is left and what is taken out are parts of the text. -/
theorem CutsInto.isInfix {p : Pattern} {s : Text} {hits : List Hit} {tail : Text}
    (hc : p.CutsInto s hits tail) :
    ∀ x ∈ (hits.flatMap fun h => [h.gap, h.matched]) ++ [tail], x <:+: s := by
  induction hc with
  | tail s =>
    intro x hx
    obtain rfl : x = s := by simpa using hx
    exact List.infix_rfl
  | @hit h hits tail found later ih =>
    intro x hx
    rw [List.flatMap_cons, List.append_assoc, List.mem_append] at hx
    rcases hx with hx | hx
    · simp only [List.mem_cons, List.not_mem_nil, or_false] at hx
      rcases hx with rfl | rfl
      · exact ⟨[], h.matched ++ h.stop.rest, by simp⟩
      · exact ⟨h.gap, h.stop.rest, by simp⟩
    · exact (ih x hx).trans ⟨h.gap ++ h.matched, [], by simp⟩

end Pattern

theorem trim_isInfix (s : Text) : s.trim <:+: s := by
  obtain ⟨l, t, hs, -⟩ := Text.exists_trim s
  exact ⟨l, t, by rw [List.append_assoc, ← hs]⟩

/-- Blank lines themselves are not shown. -/
theorem shownParts_pieces {s : Text} {hits : List Hit} {tail : Text}
    (hc : blankLine.CutsInto s hits tail) :
    shownParts ((hits.flatMap fun h => [h.gap, h.matched]) ++ [tail]) =
      shownParts (hits.map (·.gap) ++ [tail]) := by
  induction hc with
  | tail s => rfl
  | @hit h hits tail found later ih =>
    obtain ⟨b, hmatches⟩ := found
    have hover : blankLine.Over (isBlank · = true) := by
      have hbreak : isBlank '\n' = true := by decide
      refine ⟨⟨?_, fun _ hc => hc⟩, ?_⟩
      · intro c hc
        rwa [show c = '\n' by simpa using hc]
      · intro c hc
        rwa [show c = '\n' by simpa using hc]
    obtain ⟨w, hw, hblank⟩ := hmatches.over hover
    obtain rfl : h.matched = w := List.append_cancel_right hw
    rw [List.flatMap_cons, List.append_assoc, shownParts_append, ih,
      shownParts_cons h.gap [h.matched], shownParts_blank hblank, List.append_nil,
      ← shownParts_append]
    rfl

section Plain

variable {s : Text} {name : Text}

/-- A text holds no token if no place of it looks like one. -/
theorem at?_of_occursIn (h : (placeholderPattern name).occursIn s = false) {x y : Text}
    (hs : s = x ++ y) : (placeholderPattern name).at? (x.getLast?.or none) y = none := by
  have hnone : (placeholderPattern name).first? none s = none := by
    simpa [occursIn, Pattern.find?] using h
  exact first?_eq_none hnone hs

/-- The parts of a text without tokens. -/
theorem paragraphParts_eq (h : (placeholderPattern name).occursIn s = false) :
    paragraphParts (.empty name) s = partsFrom [] s := by
  have hcut : (alt (placeholderPattern name) blankLine).cut s = blankLine.cut s :=
    cutAtMost_alt fun x y hs => at?_of_occursIn h hs
  have hpieces := shownParts_pieces (cut_cutsInto blankLine s)
  rw [paragraphParts, PlaceholderTable.empty, hcut]
  refine hpieces.trans ?_
  rw [partsFrom, Sliced.prepend_nil]
  exact congrArg shownParts (Cut.parts_eq_gaps (blankLine.cut s))

/-- A search finds a token where a text looks like one. -/
theorem occursIn_placeholder : (placeholderPattern name).occursIn s = true ↔
    ∃ ds, ds ≠ [] ∧ (∀ c ∈ ds, c.isDigit = true) ∧
      "__".toList ++ name ++ '_' :: ds ++ "__".toList <:+: s := by
  constructor
  · intro h
    obtain ⟨hit, hfind⟩ := Option.isSome_iff_exists.1 h
    obtain ⟨hs, hfound⟩ := find?_eq_some hfind
    obtain ⟨ds, hne, hdigits, hmatched⟩ := found_digits hfound
    exact ⟨ds, hne, hdigits, hit.gap, hit.stop.rest, by rw [hs, ← hmatched]⟩
  · rintro ⟨ds, hne, hdigits, x, y, hs⟩
    by_contra hnone
    have hat := at?_of_occursIn (Bool.eq_false_iff.2 hnone) (x := x)
      (y := "__".toList ++ name ++ '_' :: ds ++ "__".toList ++ y) (by rw [← hs, List.append_assoc])
    have hsome := at?_digits name hne hdigits (x.getLast?.or none) y
    rw [hat] at hsome
    exact absurd hsome (by simp)

theorem occursIn_of_isInfix {part : Text} (hpart : part <:+: s)
    (h : (placeholderPattern name).occursIn s = false) :
    (placeholderPattern name).occursIn part = false := by
  rw [Bool.eq_false_iff] at h ⊢
  intro hoccurs
  obtain ⟨ds, hne, hdigits, hlooks⟩ := occursIn_placeholder.1 hoccurs
  exact h (occursIn_placeholder.2 ⟨ds, hne, hdigits, hlooks.trans hpart⟩)

/-- A text that looks like a token holds one. -/
theorem isToken_eq_false (h : (placeholderPattern name).occursIn s = false) :
    (PlaceholderTable.empty name).isToken s = false := by
  refine Bool.eq_false_iff.2 fun htoken => ?_
  obtain ⟨stop, hstop⟩ := Option.isSome_iff_exists.1 htoken
  obtain ⟨t, hmatches, hend⟩ := run_sound hstop
  rw [Option.ite_none_right_eq_some, List.isEmpty_iff] at hend
  obtain ⟨ds, hne, hdigits, hrest⟩ := matches_digits hmatches
  rw [hend.1, List.append_nil] at hrest
  have hoccurs : (placeholderPattern name).occursIn s = true :=
    occursIn_placeholder.2 ⟨ds, hne, hdigits, [], [], by
      rw [show s = _ from hrest]
      simp [PlaceholderTable.empty]⟩
  exact absurd (hoccurs.symm.trans h) (by simp)

/-- Paragraphs of a text without commands and without tokens. -/
theorem formatParagraphs_plain (hslash : '\\' ∉ s)
    (h : (placeholderPattern name).occursIn s = false) :
    formatParagraphs (.empty name) s = (partsFrom [] s).flatMap paragraph := by
  have hparts : ∀ part ∈ paragraphParts (.empty name) s, part <:+: s := by
    intro part hpart
    obtain ⟨piece, hpiece, rfl⟩ := List.mem_map.1 (List.mem_of_mem_filter hpart)
    exact (trim_isInfix piece).trans
      ((cut_cutsInto (alt (placeholderPattern name) blankLine) s).isInfix piece hpiece)
  rw [formatParagraphs, ← paragraphParts_eq h]
  refine List.flatMap_congr fun part hpart => ?_
  have hplain : '\\' ∉ part := fun hmem => hslash ((hparts part hpart).subset hmem)
  have hpasses : lineBreak.Passes part := opens_lineBreak.passes hplain
  have htoken := isToken_eq_false (occursIn_of_isInfix (hparts part hpart) h)
  rw [if_neg (by simp [htoken]), replace, hpasses.cut_eq]
  rfl

end Plain

/-! ## Conversion -/

/-- Without blocks, nothing is put back. -/
theorem resolve_empty (name s : Text) : (PlaceholderTable.empty name).resolve s = s := by
  have hone : ((PlaceholderTable.empty name).expandOnce s).run [] = (s, []) := by
    have hkeeps : ((placeholderPattern name).replaceM
        (expandHit (.empty name)) s).run [] = (s, []) := by
      have hall := replaceM_keeps (p := placeholderPattern name) (s := s) (d := ([] : List Nat))
        (f := expandHit (.empty name)) (P := fun used new => new = s ∧ used = [])
        (by
          rintro used front h - - ⟨hs, rfl⟩
          rw [PlaceholderTable.expandHit_run_of_ne (t := .empty name)
            fun n hn => absurd hn (Nat.not_lt_zero n)]
          exact ⟨hs, rfl⟩) ⟨rfl, rfl⟩
      exact Prod.ext hall.1 hall.2
    exact hkeeps
  have hfuel : 4 * ((PlaceholderTable.empty name).size + 1) = 3 + 1 := rfl
  rw [PlaceholderTable.resolve, hfuel, PlaceholderTable.resolveFrom, hone]
  simp [PlaceholderTable.unused, PlaceholderTable.size, PlaceholderTable.empty]

/-- A conversion in terms of what its last stage is given. -/
theorem convert_of_blocks {latex s : Text} {d : Draft} (h : stageInput .blocks latex = (s, d)) :
    convert latex =
      let html := d.header ++ d.blocks.resolve s
      ⟨html ++ lostTokens d.math html, d.math.entries⟩ := by
  have hruns := runStages_run latex
  rw [h] at hruns
  rw [convert_eq, finalDraft, finalText, hruns]

/-- A conversion that has neither math nor a header. -/
theorem convert_of_stageInput {latex s : Text} {d : Draft}
    (h : stageInput .paragraphs latex = (s, d)) (hmath : d.math = .empty Draft.mathName)
    (hheader : d.header = []) :
    convert latex = ⟨d.blocks.resolve (formatParagraphs d.blocks s), []⟩ := by
  have hblocks : stageInput .blocks latex = (formatParagraphs d.blocks s, d) := by
    rw [stageInput_next .paragraphs .blocks rfl, h]
    rfl
  have hlost : ∀ html, lostTokens (.empty Draft.mathName) html = [] := fun _ => rfl
  rw [convert_of_blocks hblocks]
  simp only [hmath, hheader, hlost, List.nil_append, List.append_nil]
  rfl

/-- A text without commands, math and tokens: each group of lines is a paragraph, and there is
nothing else. -/
theorem convert_plain {s : Text} (hslash : '\\' ∉ s) (hdollar : '$' ∉ s)
    (htoken : (placeholderPattern Draft.blockName).occursIn s = false) :
    convert s = ⟨(lineGroups s).flatMap fun group => paragraph (Text.join ['\n'] group).trim, []⟩ := by
  have hslash' : '\\' ∉ s.trim := fun hmem => hslash ((trim_isInfix s).subset hmem)
  have hdollar' : '$' ∉ s.trim := fun hmem => hdollar ((trim_isInfix s).subset hmem)
  have htrim : s.trim.trim = s.trim := by
    obtain ⟨-, -, -, -, -, hfirm⟩ := Text.exists_trim s
    simpa using hfirm.trim_eq (l := []) (t := []) (by simp) (by simp)
  have huntouched : Untouched .paragraphs s.trim := by
    refine ⟨fun earlier _ p hp => ?_, htrim⟩
    rcases Stage.opens_of_mem_patterns hp with hopens | hopens
    · exact hopens.passes hslash'
    · exact hopens.passes hdollar'
  have hstrip : ∀ {s : Text}, '\\' ∉ s → stripDeclarations s = s.trim := fun hs =>
    stripDeclarations_eq_trim fun e he => (opens_of_mem_declarations he).passes hs
  have hsame : convert s = convert s.trim := by
    rw [convert_eq_convertStripped, convert_eq_convertStripped, hstrip hslash, hstrip hslash', htrim]
  have hinput : stageInput .paragraphs s.trim = (s.trim, .fresh) :=
    huntouched.stageInput_eq (by decide)
  have hparagraphs := formatParagraphs_plain hslash' (occursIn_of_isInfix (trim_isInfix s) htoken)
  rw [partsFrom_trim, partsFrom_lines, List.flatMap_map] at hparagraphs
  have hconvert := convert_of_stageInput hinput rfl rfl
  rw [show Draft.fresh.blocks = .empty Draft.blockName from rfl, hparagraphs, resolve_empty]
    at hconvert
  exact hsame.trans hconvert

/-- Two paragraphs, the first of two lines, with blank lines around them. -/
theorem convert_plain_paragraphs :
    let s := "\t\none\n two \n\u00a0\n\nthree".toList
    (convert s).math = [] ∧
      (convert s).html = paragraph "one\n two".toList ++ paragraph "three".toList := by
  intro s
  have hgroups : lineGroups s = [["one".toList, " two ".toList], ["three".toList]] := by decide
  have hfirst : (Text.join ['\n'] ["one".toList, " two ".toList]).trim = "one\n two".toList := by
    decide
  have hsecond : (Text.join ['\n'] ["three".toList]).trim = "three".toList := by decide
  rw [convert_plain (s := s) (by decide) (by decide) (by decide), hgroups]
  simp only [List.flatMap_cons, List.flatMap_nil, hfirst, hsecond, List.append_nil, and_self]

end LatexPreview
