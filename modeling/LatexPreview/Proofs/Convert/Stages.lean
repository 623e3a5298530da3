import Mathlib
import LatexPreview.Convert.Document
import LatexPreview.Proofs.Convert.BlockStages
import LatexPreview.Proofs.Convert.InlineStage
import LatexPreview.Proofs.Convert.LiftStage
import LatexPreview.Proofs.Convert.ListStage
import LatexPreview.Proofs.Convert.ParagraphStage
import LatexPreview.Proofs.Convert.TableStage

/-!
# What the last stage is given

Each stage is run on what the stage in front of it leaves, so that the layouts at all stages are
sound if the first one is.  Only two stages may copy a token: the rule for plain addresses
and the captions of tables.

* `stageInput` is the text and the draft that a stage is run on
* `RepeatedByLink`, `RepeatedByTable`: a token is copied by one of the two stages
* `kept_paragraphs`: the layout in front of the paragraphs is sound
* `sound_blocks`: so is the one in front of the last stage
-/

namespace LatexPreview

open Script Pattern

/-! ## Inputs of stages -/

/-- The text and the draft that a stage is run on. -/
@[irreducible]
def stageInput (stage : Stage) (latex : Text) : Text × Draft :=
  ((Stage.all.takeWhile (· ≠ stage)).foldlM (fun s stage => stage.run s) latex : Drafting Text).run
    .fresh

/-- A stage is run on what the one in front of it leaves. -/
theorem stageInput_next (stage next : Stage)
    (h : Stage.all.takeWhile (· ≠ next) = Stage.all.takeWhile (· ≠ stage) ++ [stage])
    (latex : Text) : stageInput next latex =
      (stage.run (stageInput stage latex).1).run (stageInput stage latex).2 := by
  rw [stageInput, h, List.foldlM_append, Drafting.run_bind, stageInput]
  simp only [List.foldlM_cons, List.foldlM_nil, bind_pure]

theorem stageInput_math (latex : Text) :
    stageInput .math latex = (stripDeclarations latex, .fresh) := by
  rw [stageInput]
  rfl

/-- The last stage puts the blocks back. -/
theorem runStages_run (latex : Text) :
    (runStages latex).run .fresh =
      ((stageInput .blocks latex).2.blocks.resolve (stageInput .blocks latex).1,
        (stageInput .blocks latex).2) := by
  have hall : ∀ s : Text, runStages s =
      (Stage.all.takeWhile (· ≠ .blocks)).foldlM (fun s stage => stage.run s) s >>= fun s =>
        Stage.blocks.run s := by
    intro s
    rw [runStages, show Stage.all = Stage.all.takeWhile (· ≠ .blocks) ++ [.blocks] from rfl,
      List.foldlM_append]
    simp only [List.foldlM_cons, List.foldlM_nil, bind_pure]
    rfl
  have hinput : ((Stage.all.takeWhile (· ≠ .blocks)).foldlM (fun s stage => stage.run s) latex :
      Drafting Text).run .fresh = stageInput .blocks latex := by rw [stageInput]
  rw [hall, Drafting.run_bind, hinput]
  rfl

/-! ## Copied tokens -/

/-- The token stands in a plain address, which is shown as the text of its link, too. -/
def RepeatedByLink (latex token : Text) : Prop :=
  ∃ address ∈ plainAddresses
    ((formatWithoutUrls (stageInput .inline latex).1).run (stageInput .inline latex).2).1,
    token <:+: address

instance (latex token : Text) : Decidable (RepeatedByLink latex token) :=
  inferInstanceAs (Decidable (∃ address ∈ plainAddresses _, _))

/-- The token stands in the caption of a table, and in another part of it that is shown. -/
def RepeatedByTable (latex token : Text) : Prop :=
  ∃ content ∈ tableContents (stageInput .tables latex).1, RepeatsCaption content token

instance (latex token : Text) : Decidable (RepeatedByTable latex token) :=
  inferInstanceAs (Decidable (∃ content ∈ tableContents _, _))

/-! ## Sound layouts -/

section Layouts

variable {wanted : Nat → Prop} {latex : Text} (hs : Sealed (stripDeclarations latex))
  (hlink : ∀ n, wanted n → ¬ RepeatedByLink latex (placeholder Draft.mathName n))
  (htable : ∀ n, wanted n → ¬ RepeatedByTable latex (placeholder Draft.mathName n))

include hs hlink htable

/-- Stage by stage, the layouts in front of the paragraphs are sound. -/
theorem kept_paragraphs :
    Kept wanted (stageInput .paragraphs latex).2 (stageInput .paragraphs latex).1 := by
  have hmath : Kept wanted (stageInput .math latex).2 (stageInput .math latex).1 := by
    simp only [stageInput_math]
    exact kept_fresh hs
  have hheader : Kept wanted (stageInput .header latex).2 (stageInput .header latex).1 := by
    rw [stageInput_next .math .header (by decide)]
    exact kept_liftMath hmath
  have hinline : Kept wanted (stageInput .inline latex).2 (stageInput .inline latex).1 := by
    rw [stageInput_next .header .inline (by decide)]
    exact kept_extractHeader hheader
  have hsections : Kept wanted (stageInput .sections latex).2 (stageInput .sections latex).1 := by
    rw [stageInput_next .inline .sections (by decide)]
    exact kept_formatInline hinline fun n hn address ha hin => hlink n hn ⟨address, ha, hin⟩
  have hverbatim : Kept wanted (stageInput .verbatim latex).2 (stageInput .verbatim latex).1 := by
    rw [stageInput_next .sections .verbatim (by decide)]
    exact kept_formatSections hsections
  have hquotes : Kept wanted (stageInput .quotes latex).2 (stageInput .quotes latex).1 := by
    rw [stageInput_next .verbatim .quotes (by decide)]
    exact kept_formatListings hverbatim
  have htables : Kept wanted (stageInput .tables latex).2 (stageInput .tables latex).1 := by
    rw [stageInput_next .quotes .tables (by decide)]
    exact kept_formatQuotes hquotes
  have hlists : Kept wanted (stageInput .lists latex).2 (stageInput .lists latex).1 := by
    rw [stageInput_next .tables .lists (by decide)]
    exact kept_formatTables htables fun n hn content hc hin => htable n hn ⟨content, hc, hin⟩
  rw [stageInput_next .lists .paragraphs (by decide)]
  exact kept_formatListsFrom _ hlists

/-- Paragraphs do not touch the draft, and spare the tokens of the text. -/
theorem sound_blocks :
    ∃ l : Layout, l.Shows (stageInput .blocks latex).2 (stageInput .blocks latex).1 ∧
      l.Sound wanted := by
  obtain ⟨l, hshows, hsound, -⟩ := kept_paragraphs hs hlink htable
  have hrun : stageInput .blocks latex =
      (formatParagraphs (stageInput .paragraphs latex).2.blocks (stageInput .paragraphs latex).1,
        (stageInput .paragraphs latex).2) := stageInput_next .paragraphs .blocks (by decide) latex
  have hname : (stageInput .paragraphs latex).2.blocks.name = Draft.blockName := by
    rw [hshows.blocks]
    rfl
  obtain ⟨b, htext, htokens, hb⟩ := narrows_formatParagraphs hname l.text hsound.textSealed
  rw [← hshows.text] at htext
  have hwithin : Within (Watched wanted) (Layout.everything ⟨b, l.header, l.blocks, l.maths⟩)
      ([] ++ l.everything) := by
    refine .of_sublist ?_
    simp only [Layout.everything, List.append_assoc, List.nil_append]
    exact htokens.append (.refl _)
  have hfresh : l.Fresh ⟨b, l.header, l.blocks, l.maths⟩ [] := ⟨by simp, by simp, by simp⟩
  rw [hrun]
  refine ⟨⟨b, l.header, l.blocks, l.maths⟩,
    ⟨htext.symm, hshows.header, hshows.blocks, hshows.mathName, hshows.maths⟩, ?_⟩
  exact ⟨hb, hsound.headerSealed, hsound.headerCapped, hsound.shelf,
    hsound.once_of_change hfresh hwithin, hsound.known_of_change hfresh (fun _ h => h) hwithin⟩

end Layouts

end LatexPreview
