import Mathlib
import LatexPreview.Convert.Paragraphs
import LatexPreview.Proofs.Convert.Shelves

/-!
# Paragraphs

A text is divided at blank lines and at the tokens of blocks.  These are passed on, each part
by itself; the other parts are put into paragraphs with all the tokens they have.

* `text_of_isToken`: a part that looks like the token of a block is one
* `narrows_formatParagraphs`: paragraphs spare tokens
-/

namespace LatexPreview

open Script Pattern

/-- What looks like a token of a block, as a whole, is one. -/
theorem text_of_isToken {blocks : PlaceholderTable} (hname : blocks.name = Draft.blockName)
    {g : Script} (hg : Sealed (plain g)) (h : blocks.isToken (text g) = true) :
    ∃ n, text g = (blockToken n).text ∧ blockToken n ∈ tokens g := by
  obtain ⟨stop, hstop⟩ := Option.isSome_iff_exists.1 h
  obtain ⟨t, hmatches, hrest⟩ := run_sound hstop
  have hend : t.rest = [] := by
    split at hrest
    · simpa using ‹t.rest.isEmpty = true›
    · exact absurd hrest (by simp)
  obtain ⟨ds, -, hds, htext⟩ := matches_placeholder hmatches
  rw [hend, hname] at htext
  have htoken : text g = [] ++ ("__".toList ++ TokenKind.block.name ++ '_' :: ds ++ "__".toList) ++ [] :=
    htext
  obtain ⟨ga, n, gb, rfl, hga, -, hgb⟩ := text_eq_append_token (hg.not_name _) hds htoken
  exact ⟨n, by simp [hga, hgb, blockToken], by simp [blockToken]⟩

/-- A part of a text as it is passed on. -/
def partHtml (blocks : PlaceholderTable) (part : Text) : Text :=
  if blocks.isToken part then part
  else paragraph (lineBreak.replace (fun _ => "<br/>".toList) part)

theorem opens_lineBreak : lineBreak.Opens '\\' :=
  ((opens_command "newline").append _).alt (opens_lit '\\' ['\\'])

theorem narrows_lineBreak : Narrows (lineBreak.replace fun _ => "<br/>".toList) := by
  have hcloses : lineBreak.ClosesIn ['e', '\\'] :=
    (((closesIn_lit "\\newlin".toList 'e').edge _).mono (by simp)).alt
      ((closesIn_lit ['\\'] '\\').mono (by simp))
  have hsharp : lineBreak.Sharp := ⟨⟨'\\', by decide, opens_lineBreak⟩, _, by simp [TokenChar], hcloses⟩
  exact narrows_replace hsharp.severs (fits_ofText (by decide) (capped_tag "br/".toList))

theorem renders_partHtml {blocks : PlaceholderTable} (hname : blocks.name = Draft.blockName) :
    Renders (partHtml blocks) := by
  intro g hg
  rw [partHtml]
  split
  · rename_i htoken
    obtain ⟨n, htext, hmem⟩ := text_of_isToken hname hg htoken
    have hlow : Fits (ofText ['_']) := fits_ofText (by decide) (capped_singleton (by decide))
    exact ⟨[.token (blockToken n)], by simp [htext], by simpa using hmem, hlow⟩
  · exact renders_paragraph.comp narrows_lineBreak g hg

/-- Putting a text into paragraphs spares tokens. -/
theorem narrows_formatParagraphs {blocks : PlaceholderTable}
    (hname : blocks.name = Draft.blockName) : Narrows (formatParagraphs blocks) := by
  have hblank : blankLine.Sharp :=
    ⟨⟨'\n', by decide, ((opens_one '\n').append _).append _⟩, ['\n'], by simp [TokenChar],
      (closesIn_one '\n').prepend _⟩
  have hsevers : (alt (placeholderPattern blocks.name) blankLine).Severs := by
    rw [hname]
    exact (severs_placeholder .block).alt hblank.severs
  have hparts : Divides (paragraphParts blocks) :=
    ((divides_pieces hsevers).map narrows_trim).filter _
  exact hparts.flatMap (renders_partHtml hname)

end LatexPreview
