import Mathlib
import LatexPreview.Proofs.Environments.Lists
import LatexPreview.Proofs.Environments.Tables

/-!
# Environments in conversions

Quotations, tables and lists are taken out by three stages, one after the other, and what has been
taken out is not looked at again.  So a document with environments within each other is converted as
a whole if, and only if, each of them is taken out no later than those around it.

* `Drafting.StoresElements`: steps that store nothing but elements
* `tagless_convert`: the tags in a conversion are those in its paragraphs and its blocks
* `tagless_convert_iff`: no tag is left of a document whose environments keep apart, and of no other
* `list_in_quotation_keeps_tags`: a tag is left of a list in a quotation
-/

namespace LatexPreview

open Pattern Text

/-! ## Stored elements -/

namespace Drafting

/-- A step that stores nothing but elements. -/
def StoresElements {α : Type} (m : Drafting α) : Prop :=
  ∀ d : Draft, d.HasElements → (m.run d).2.HasElements

theorem storesElements_pure {α : Type} (a : α) : StoresElements (pure a) := fun _ h => h

theorem StoresElements.bind {α β : Type} {m : Drafting α} {f : α → Drafting β}
    (hm : m.StoresElements) (hf : ∀ a, (f a).StoresElements) : (m >>= f).StoresElements :=
  fun d h => hf _ _ (hm d h)

theorem storesElements_replaceM {p : Pattern} {f : Hit → Drafting Text}
    (hf : ∀ h, (f h).StoresElements) (s : Text) : StoresElements (p.replaceM f s) := by
  intro d hd
  refine Pattern.replaceM_keeps (P := fun (e : Draft) _ => e.HasElements) ?_ hd
  intro e _ h _ _ he
  exact hf h e he

theorem storesElements_addBlock {html : Text} (h : Enclosed html) : StoresElements (addBlock html) :=
  fun _ hd => hd.addBlock h

theorem storesElements_paragraphBlock (s : Text) : StoresElements (paragraphBlock s) :=
  fun _ hd => hd.paragraphBlock s

end Drafting

open Drafting

theorem storesElements_formatQuotes (s : Text) : StoresElements (formatQuotes s) :=
  storesElements_replaceM (fun _ => storesElements_addBlock enclosed_styled) s

theorem storesElements_wholeTable (content : Text) : StoresElements (wholeTable content) := by
  cases hfind : tabularPattern.find? content with
  | none =>
    simp only [wholeTable, hfind]
    exact storesElements_addBlock enclosed_styled
  | some h =>
    simp only [wholeTable, hfind]
    exact (storesElements_addBlock enclosed_styled).bind fun _ =>
      (storesElements_paragraphBlock _).bind fun _ => storesElements_pure _

theorem storesElements_formatTables (s : Text) : StoresElements (formatTables s) :=
  (storesElements_replaceM (fun _ => storesElements_wholeTable _) s).bind
    (storesElements_replaceM fun _ => storesElements_addBlock enclosed_styled)

theorem storesElements_formatList (h : Hit) : StoresElements (formatList h) :=
  (storesElements_paragraphBlock _).bind fun _ =>
    (storesElements_addBlock (enclosed_listHtml _ _)).bind fun _ => storesElements_pure _

theorem storesElements_formatListsFrom (fuel : Nat) (s : Text) :
    StoresElements (formatListsFrom fuel s) := by
  induction fuel generalizing s with
  | zero => exact storesElements_pure s
  | succ fuel ih =>
    refine (storesElements_replaceM storesElements_formatList s).bind fun new => ?_
    split
    · exact storesElements_pure s
    · exact ih new

/-! ## The last stages -/

/-- Without backslashes in a text, there are none in its paragraphs. -/
theorem slash_not_mem_formatParagraphs {blocks : PlaceholderTable} {s : Text} (h : '\\' ∉ s) :
    '\\' ∉ formatParagraphs blocks s := by
  rw [formatParagraphs, List.mem_flatMap]
  rintro ⟨part, hpart, hmem⟩
  have hplain : '\\' ∉ part := by
    obtain ⟨piece, hpiece, rfl⟩ := List.mem_map.1 (List.mem_of_mem_filter hpart)
    have hpart : piece.trim <:+: s :=
      (trim_isInfix piece).trans ((cut_cutsInto _ s).isInfix piece hpiece)
    exact fun hslash => h (hpart.subset hslash)
  split at hmem
  · exact hplain hmem
  · have hpasses : lineBreak.Passes part := opens_lineBreak.passes hplain
    have hstyle := (not_mem_blockElements ("p", Style.paragraph) (by simp [blockElements])).2
    rw [replace, hpasses.cut_eq] at hmem
    simp [paragraph, Html.styled, Html.element, Html.attr, Cut.replace, hplain, hstyle] at hmem

/-- The tags in a conversion are those in its paragraphs and its blocks. -/
theorem tagless_convert {latex s : Text} {d : Draft} (h : stageInput .paragraphs latex = (s, d))
    (hd : d.HasElements) : Tagless (convert latex).html ↔
      Tagless (formatParagraphs d.blocks s) ∧ ∀ content ∈ d.blocks.contents, Tagless content := by
  have hname : TokenName d.blocks.name := by
    rw [hd.name]
    decide
  have hword : ∀ w ∈ tagFronts, w <:+: (convert latex).html ↔
      w <:+: formatParagraphs d.blocks s ∨ ∃ content ∈ d.blocks.contents, w <:+: content := by
    intro w hw
    have hjoined : Unjoined d.blocks.name w := by
      rw [hd.name]
      exact unjoined_tagFront hw
    rw [convert_of_stageInput h hd.math hd.header]
    exact PlaceholderTable.infix_resolve_iff hname hjoined hd.enclosed _
  constructor
  · intro htagless
    exact ⟨fun w hw hi => htagless w hw ((hword w hw).2 (.inl hi)),
      fun content hcontent w hw hi => htagless w hw ((hword w hw).2 (.inr ⟨content, hcontent, hi⟩))⟩
  · rintro ⟨htext, hblocks⟩ w hw hi
    rcases (hword w hw).1 hi with hi | ⟨content, hcontent, hi⟩
    · exact htext w hw hi
    · exact hblocks content hcontent w hw hi

/-! ## The stages for environments -/

section Stages

variable {latex : Text}

/-- What is stored by the stages for environments are elements, and nothing that has been stored is
taken back. -/
theorem paragraphsInput_draft (h : (stageInput .quotes latex).2.HasElements) :
    (stageInput .paragraphs latex).2.HasElements ∧
      (stageInput .tables latex).2.Grows (stageInput .paragraphs latex).2 ∧
      (stageInput .lists latex).2.Grows (stageInput .paragraphs latex).2 := by
  have htables := stageInput_next .quotes .tables (by decide) latex
  have hlists := stageInput_next .tables .lists (by decide) latex
  have hparagraphs := stageInput_next .lists .paragraphs (by decide) latex
  have hlater : (stageInput .lists latex).2.Grows (stageInput .paragraphs latex).2 := by
    rw [hparagraphs]
    exact Stage.growsBlocks (by simp) _ _
  have hearlier : (stageInput .tables latex).2.Grows (stageInput .lists latex).2 := by
    rw [hlists]
    exact Stage.growsBlocks (by simp) _ _
  refine ⟨?_, hearlier.trans hlater, hlater⟩
  rw [hparagraphs, hlists, htables]
  exact storesElements_formatListsFrom _ _ _ (storesElements_formatTables _ _
    (storesElements_formatQuotes _ _ h))

/-- A tag that is stored by one of these stages is left in the conversion. -/
theorem not_tagless_convert (h : (stageInput .quotes latex).2.HasElements) {content : Text}
    (hcontent : content ∈ (stageInput .tables latex).2.blocks.contents ∨
      content ∈ (stageInput .lists latex).2.blocks.contents) (htag : ¬ Tagless content) :
    ¬ Tagless (convert latex).html := by
  obtain ⟨helements, htables, hlists⟩ := paragraphsInput_draft h
  have hstored : content ∈ (stageInput .paragraphs latex).2.blocks.contents :=
    hcontent.elim (htables.blocks.subset ·) (hlists.blocks.subset ·)
  rw [tagless_convert rfl helements]
  exact fun htagless => htag (htagless.2 content hstored)

end Stages

/-! ## Environments that keep apart -/

/-- What may be within environments, as the stages for quotations and for tables see it. -/
theorem admits_iff {p : EnvPlace} {places : List EnvPlace} :
    (∀ inner ∈ places, p.Admits inner) ↔
      (p = .quotation → places = []) ∧
        (p ≠ .quotation → p = .table → places.filter (· ≠ .quotation) = []) := by
  cases p with
  | outside | list | table => simp [EnvPlace.Admits]
  | quotation => simp [EnvPlace.Admits, List.eq_nil_iff_forall_not_mem]

namespace EnvTree

variable {p : EnvPlace} {t u : EnvTree p}

theorem separate_iff : t.Separate ↔ t.All quoteClearing.fit ∧
    t.All fun e body => e.place ≠ .quotation → e.place = .table →
      body.places.filter (· ≠ .quotation) = [] := by
  rw [← all_and]
  exact ⟨fun h => h.mono fun _ _ => admits_iff.1, fun h => h.mono fun _ _ => admits_iff.2⟩

/-- Behind the stage for quotations, tables are without environments if they keep apart. -/
theorem separate_iff_of_clears (h : t.All quoteClearing.fit) (hclears : quoteClearing.Clears t u) :
    t.Separate ↔ u.All tableClearing.fit := by
  rw [separate_iff, and_iff_right h]
  exact (Clearing.all_iff (fun _ _ => rfl) hclears h
    (R := fun place places => place = .table → places = [])).symm

theorem outside_not_mem_places : EnvPlace.outside ∉ t.places := by
  induction t with
  | nil => exact List.not_mem_nil
  | leaf x more ih => exact ih
  | env e body more ihbody ihmore =>
    have hplace : EnvPlace.outside ≠ e.place := by cases e <;> simp [Enclosure.place]
    simp [places, hplace, ihbody, ihmore]

/-- When quotations and tables have been taken out, only lists are left. -/
theorem eq_list_of_clears {v : EnvTree p} (hquotes : t.All quoteClearing.fit)
    (hu : quoteClearing.Clears t u) (htables : u.All tableClearing.fit)
    (hv : tableClearing.Clears u v) : ∀ q ∈ v.places, q = .list := by
  intro q hq
  rw [Clearing.places_eq (fun _ _ => rfl) hv htables, List.mem_filter,
    Clearing.places_eq (fun _ _ => rfl) hu hquotes, List.mem_filter] at hq
  obtain ⟨⟨hmem, hquotation⟩, htable⟩ := hq
  cases q with
  | outside => exact absurd hmem outside_not_mem_places
  | list => rfl
  | quotation | table => simp at hquotation htable

end EnvTree

/-! ## Conversions -/

/-- The commands of a tree are none of those that declare something. -/
theorem stripDeclarations_tree (t : EnvTree .outside) : stripDeclarations t.text = t.text.trim := by
  have hrefuses : ∀ e ∈ declarations, ∀ n ∈ environmentNames, e.1.Refuses ('\\' :: n) := by
    decide +kernel
  refine stripDeclarations_eq_trim fun e he => ?_
  have hopens := opens_of_mem_declarations he
  exact ⟨hopens.consumes, hopens.skips_commands (hrefuses e he) (t.commands_text []) t.last_text⟩

/-- A tree comes to the stage for quotations as it is. -/
theorem quotesInput_tree {t : EnvTree .outside} (htrim : t.text.trim = t.text) :
    stageInput .quotes t.text = (t.text, .fresh) := by
  have huntouched : Untouched .quotes t.text := untouched_of_commands (by decide +kernel)
    (t.commands_text []) t.last_text t.dollar_not_mem_text htrim
  exact huntouched.stageInput_eq (by simp)

theorem tagless_convert_of_trim {t : EnvTree .outside} (htrim : t.text.trim = t.text) :
    Tagless (convert t.text).html ↔ t.Separate := by
  have hquotes := quotesInput_tree htrim
  have helements : (stageInput .quotes t.text).2.HasElements := by
    rw [hquotes]
    exact tidy_fresh.elements
  have htables := stageInput_next .quotes .tables (by decide) t.text
  have hlists := stageInput_next .tables .lists (by decide) t.text
  have hparagraphs := stageInput_next .lists .paragraphs (by decide) t.text
  rw [hquotes, Stage.run, formatQuotes_eq] at htables
  by_cases hfit : t.All quoteClearing.fit
  · obtain ⟨u, d, hrun, hclears, hd⟩ := quoteClearing.exists_pass hfit tidy_fresh
    have hu : stageInput .tables t.text = (u.text, d) := htables.trans hrun
    rw [hu, Stage.run, formatTables_tree] at hlists
    rw [EnvTree.separate_iff_of_clears hfit hclears]
    by_cases hfit' : u.All tableClearing.fit
    · obtain ⟨v, e, hrun', hclears', he⟩ := tableClearing.exists_pass hfit' hd
      have hv : stageInput .lists t.text = (v.text, e) := hlists.trans hrun'
      obtain ⟨w, f, hlater, hnone, hf⟩ := exists_formatLists_tree
        (EnvTree.eq_list_of_clears hfit hclears hfit' hclears') he
      have hw : stageInput .paragraphs t.text = (w.text, f) := by
        rw [hparagraphs, hv]
        exact hlater
      have hslash : '\\' ∉ formatParagraphs f.blocks w.text :=
        slash_not_mem_formatParagraphs (w.slash_not_mem_text (.inl rfl) hnone)
      rw [tagless_convert hw hf.elements]
      exact iff_of_true ⟨tagless_of_not_mem hslash, hf.tagless⟩ hfit'
    · obtain ⟨content, hcontent, htag⟩ := stains_tables hfit' [] none d
      rw [List.append_nil] at hcontent
      refine iff_of_false (not_tagless_convert helements (.inr ?_) htag) hfit'
      rw [hlists]
      exact hcontent
  · obtain ⟨content, hcontent, htag⟩ := stains_quotes hfit [] none .fresh
    rw [List.append_nil] at hcontent
    refine iff_of_false (not_tagless_convert helements (.inl ?_) htag)
      fun hseparate => hfit (EnvTree.separate_iff.1 hseparate).1
    rw [htables]
    exact hcontent

/-- No tag is left of a document in which quotations hold no environments and tables hold only
quotations, and a tag is left of every other one.  In lists, there may be anything. -/
theorem tagless_convert_iff (t : EnvTree .outside) : Tagless (convert t.text).html ↔ t.Separate := by
  obtain ⟨u, htext, hseparate⟩ := t.exists_trim
  have htrim : u.text.trim = u.text := by
    obtain ⟨-, -, -, -, -, hfirm⟩ := Text.exists_trim t.text
    rw [htext]
    simpa using hfirm.trim_eq (l := []) (t := []) (by simp) (by simp)
  have hsame : convert t.text = convert u.text := by
    rw [convert_eq_convertStripped, convert_eq_convertStripped, stripDeclarations_tree,
      stripDeclarations_tree, htrim, htext]
  rw [hsame, tagless_convert_of_trim htrim, hseparate]

/-- A list in a quotation is not converted. -/
theorem list_in_quotation_keeps_tags :
    ¬ ∀ t : EnvTree .outside, Tagless (convert t.text).html := by
  intro h
  have hleft := h (.env .quote (.env (.list .itemize) (.leaf .item (.leaf (.char ' ' (by decide))
    (.leaf (.char 'a' (by decide)) .nil))) .nil) .nil)
  revert hleft
  decide +kernel

end LatexPreview
