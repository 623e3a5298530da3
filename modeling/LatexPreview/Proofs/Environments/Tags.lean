import Mathlib
import LatexPreview.Proofs.Convert.Untouched
import LatexPreview.Proofs.Convert.PlainText
import LatexPreview.Proofs.Placeholder.Words

/-!
# Tags of environments in what is shown

What is shown of the source of a quotation, of a table or of a list has the tags of environments
that are in the source, and no others.

* `Tagless`: no tag of an environment is begun in a text
* `tagless_styled`: an element has the tags that are in its content
* `tagless_tableHtml`, `tagless_listHtml`: the tables and lists of sources without tags
* `not_tagless_tableHtml`: a table in whose source a tag stands in front of all brackets
-/

namespace LatexPreview

open Pattern Text

/-! ## Texts without tags -/

/-- What the tags of environments begin with. -/
def tagFronts : List Text := ["\\begin\x7b".toList, "\\end\x7b".toList]

/-- No tag of an environment is begun in the text. -/
def Tagless (x : Text) : Prop := ∀ w ∈ tagFronts, ¬ w <:+: x

instance (x : Text) : Decidable (Tagless x) := inferInstanceAs (Decidable (∀ w ∈ tagFronts, _))

theorem unjoined_tagFront {w : Text} (hw : w ∈ tagFronts) : Unjoined Draft.blockName w := by
  have hchars : ∀ c ∈ ['\\', 'b', 'e', 'g', 'i', 'n', 'd', '{'], ¬ (c = '<' ∨ c = '>' ∨ c = '_' ∨
      c ∈ ['B', 'L', 'K'] ∨ c.isDigit = true) := by
    intro c hc
    simp only [List.mem_cons, List.not_mem_nil, or_false] at hc
    rcases hc with rfl | rfl | rfl | rfl | rfl | rfl | rfl | rfl <;> decide
  have hsub : w ≠ [] ∧ ∀ c ∈ w, c ∈ ['\\', 'b', 'e', 'g', 'i', 'n', 'd', '{'] := by
    rcases List.mem_pair.1 hw with rfl | rfl <;> simp
  exact ⟨hsub.1, fun c hc => hchars c (hsub.2 c hc)⟩

section Texts

variable {x y z : Text}

theorem Tagless.of_part (h : Tagless x) (hy : y <:+: x) : Tagless y := fun w hw hi =>
  h w hw (hi.trans hy)

theorem tagless_of_not_mem (h : '\\' ∉ x) : Tagless x := by
  intro w hw hi
  have hslash : '\\' ∈ w := by
    rcases List.mem_pair.1 hw with rfl | rfl <;> exact List.mem_cons_self
  exact h (hi.subset hslash)

/-- No tag reaches over an angle bracket. -/
theorem tagless_bracket {c : Char} (hc : c = '<' ∨ c = '>') :
    Tagless (x ++ c :: y) ↔ Tagless x ∧ Tagless y := by
  have haround : ∀ w ∈ tagFronts, w <:+: x ++ c :: y ↔ w <:+: x ∨ w <:+: y := by
    intro w hw
    have hjoined := unjoined_tagFront hw
    refine infix_around (y := [c]) hjoined.nonempty (by simp) fun d hd hmem => hjoined.chars d hd ?_
    obtain rfl := List.mem_singleton.1 hmem
    rcases hc with rfl | rfl
    · exact .inl rfl
    · exact .inr (.inl rfl)
  constructor
  · intro h
    exact ⟨fun w hw hi => h w hw ((haround w hw).2 (.inl hi)),
      fun w hw hi => h w hw ((haround w hw).2 (.inr hi))⟩
  · rintro ⟨hx, hy⟩ w hw hi
    exact ((haround w hw).1 hi).elim (hx w hw) (hy w hw)

theorem tagless_enclosed (hx : Enclosed x) : Tagless (x ++ y) ↔ Tagless x ∧ Tagless y := by
  obtain ⟨s, rfl⟩ := hx
  have hwhole : '<' :: (s ++ ['>']) ++ y = ('<' :: s) ++ '>' :: y := by simp
  have halone : '<' :: (s ++ ['>']) = ('<' :: s) ++ '>' :: [] := by simp
  have hnil : Tagless [] := tagless_of_not_mem (by simp)
  rw [hwhole, halone, tagless_bracket (.inr rfl), tagless_bracket (.inr rfl)]
  simp [hnil]

theorem tagless_flatMap {α : Type} {f : α → Text} {l : List α} (hf : ∀ a ∈ l, Enclosed (f a)) :
    Tagless (l.flatMap f) ↔ ∀ a ∈ l, Tagless (f a) := by
  induction l with
  | nil => simpa using tagless_of_not_mem (x := []) (by simp)
  | cons a l ih =>
    rw [List.flatMap_cons, tagless_enclosed (hf a (by simp)), ih fun b hb => hf b (by simp [hb])]
    simp

/-- Blanks around a text do not matter to its tags. -/
theorem tagless_trim : Tagless x.trim ↔ Tagless x := by
  refine ⟨fun h w hw hi => h w hw ?_, fun h => h.of_part (trim_isInfix x)⟩
  obtain ⟨l, t, hx, hl, ht, -⟩ := exists_trim x
  have hblank : ∀ c ∈ w, isBlank c = false := by
    rcases List.mem_pair.1 hw with rfl | rfl <;> simp [isBlank]
  rw [hx] at hi
  exact (infix_blanks (unjoined_tagFront hw).nonempty hblank hl ht).1 hi

end Texts

/-! ## Elements -/

/-- A literal is made of its characters, so that its bytes need not be read. -/
theorem not_mem_literal {c : Char} {s : Text} (h : s.elem c = false) :
    c ∉ (String.ofList s).toList := by
  rw [String.toList_ofList]
  intro hmem
  simp [hmem] at h

theorem not_mem_concat {c : Char} {s t : String} (hs : c ∉ s.toList) (ht : c ∉ t.toList) :
    c ∉ (s ++ t).toList := by
  simp [String.toList_append, hs, ht]

section Elements

variable {tag style : String} {attributes : List (String × Text)} {content : Text}

theorem enclosed_rowHtml {row : Text} : Enclosed (rowHtml tag style row) := enclosed_element

/-- The tags in an element are those in its content. -/
theorem tagless_element (htag : '\\' ∉ Html.element tag attributes []) :
    Tagless (Html.element tag attributes content) ↔ Tagless content := by
  rw [element_eq] at htag ⊢
  have hfront : '\\' ∉ '<' :: (tag.toList ++ attributes.flatMap (Function.uncurry Html.attr)) :=
    fun hmem => htag (List.mem_append_left _ hmem)
  have hback : '\\' ∉ '/' :: tag.toList ++ ['>'] := by
    intro hmem
    refine htag (List.mem_append_right _ ?_)
    simp only [List.nil_append, List.mem_cons]
    exact .inr (.inr hmem)
  rw [tagless_bracket (.inr rfl), tagless_bracket (.inl rfl)]
  exact ⟨fun h => h.2.1, fun h => ⟨tagless_of_not_mem hfront, h, tagless_of_not_mem hback⟩⟩

/-- The elements that quotations, tables, lists and paragraphs are made of. -/
def blockElements : List (String × String) :=
  [("blockquote", Style.quote), ("p", Style.paragraph), ("div", Style.tableFrame),
    ("table", Style.table), ("th", Style.headCell), ("td", Style.cell), ("ul", Style.bulletList),
    ("ol", Style.numberedList), ("dl", Style.termList), ("li", Style.listItem), ("dt", Style.term),
    ("dd", Style.termText)]

theorem not_mem_blockElements : ∀ e ∈ blockElements, '\\' ∉ e.1.toList ∧ '\\' ∉ e.2.toList := by
  simp only [blockElements, List.forall_mem_cons, List.not_mem_nil, false_implies, implies_true,
    and_true]
  exact ⟨⟨not_mem_literal rfl, not_mem_concat (not_mem_concat (not_mem_literal rfl)
      (not_mem_literal rfl)) (not_mem_literal rfl)⟩,
    ⟨not_mem_literal rfl, not_mem_concat (not_mem_literal rfl) (not_mem_literal rfl)⟩,
    ⟨not_mem_literal rfl, not_mem_literal rfl⟩,
    ⟨not_mem_literal rfl, not_mem_concat (not_mem_literal rfl) (not_mem_literal rfl)⟩,
    ⟨not_mem_literal rfl, not_mem_concat (not_mem_literal rfl) (not_mem_literal rfl)⟩,
    ⟨not_mem_literal rfl, not_mem_concat (not_mem_literal rfl) (not_mem_literal rfl)⟩,
    ⟨not_mem_literal rfl, not_mem_literal rfl⟩, ⟨not_mem_literal rfl, not_mem_literal rfl⟩,
    ⟨not_mem_literal rfl, not_mem_literal rfl⟩, ⟨not_mem_literal rfl, not_mem_literal rfl⟩,
    ⟨not_mem_literal rfl, not_mem_literal rfl⟩, ⟨not_mem_literal rfl, not_mem_literal rfl⟩⟩

theorem tagless_styled (h : (tag, style) ∈ blockElements) :
    Tagless (Html.styled tag style content) ↔ Tagless content := by
  obtain ⟨htag, hstyle⟩ := not_mem_blockElements _ h
  rw [Html.styled]
  exact tagless_element (by simp [Html.element, Html.attr, htag, hstyle])

end Elements

/-! ## Parts of texts -/

section Parts

variable {p : Pattern} {s : Text}

theorem split_isInfix {x : Text} (hx : x ∈ p.split s) : x <:+: s := by
  refine (cut_cutsInto p s).isInfix x ?_
  rcases List.mem_append.1 hx with hgap | htail
  · obtain ⟨h, hh, rfl⟩ := List.mem_map.1 hgap
    exact List.mem_append_left _ (List.mem_flatMap.2 ⟨h, hh, by simp⟩)
  · exact List.mem_append_right _ htail

theorem eraseFront_isInfix : p.eraseFront s <:+: s := by
  rw [eraseFront]
  split
  · rename_i stop hstop
    obtain ⟨m, hm⟩ := (matches_of_at? hstop).exists_append
    exact ⟨m, [], by simpa using hm.symm⟩
  · exact List.infix_rfl

end Parts

/-! ## Tables -/

theorem tagless_rowHtml {tag style : String} (h : (tag, style) ∈ blockElements) {row : Text} :
    Tagless (rowHtml tag style row) ↔ ∀ cell ∈ rowCells row, Tagless cell := by
  rw [rowHtml, tagless_element (by decide), tagless_flatMap fun _ _ => enclosed_styled]
  exact forall₂_congr fun cell _ => tagless_styled h

theorem tagless_rowsHtml {rows : List Text} :
    Tagless (rowsHtml rows) ↔ ∀ row ∈ rows, ∀ cell ∈ rowCells row, Tagless cell := by
  cases rows with
  | nil => simpa [rowsHtml] using tagless_of_not_mem (x := []) (by simp)
  | cons first more =>
    rw [rowsHtml, tagless_enclosed enclosed_rowHtml, tagless_flatMap fun _ _ => enclosed_rowHtml,
      tagless_rowHtml (by simp [blockElements]), List.forall_mem_cons]
    exact and_congr_right fun _ => forall₂_congr fun row _ => tagless_rowHtml (by simp [blockElements])

/-- The tags in a table without a caption are those in its cells. -/
theorem tagless_tableHtml_iff {source : Text} :
    Tagless (tableHtml source []) ↔ ∀ row ∈ tableRows source, ∀ cell ∈ rowCells row, Tagless cell := by
  rw [tableHtml, tagless_styled (by simp [blockElements]), tagless_styled (by simp [blockElements]),
    List.nil_append, tagless_element (by decide), tagless_rowsHtml]

/-- A source without tags and lines is shown without tags. -/
theorem tagless_tableHtml {source : Text} (h : Tagless source) (hrules : rulePattern.Passes source) :
    Tagless (tableHtml source []) := by
  refine tagless_tableHtml_iff.2 fun row hrow cell hcell => h.of_part ?_
  obtain ⟨part, hpart, rfl⟩ := List.mem_map.1 (List.mem_of_mem_filter hrow)
  obtain ⟨piece, hpiece, rfl⟩ := List.mem_map.1 hcell
  have hsource : part <:+: source := by
    rw [hrules.erase_eq] at hpart
    exact split_isInfix hpart
  exact (trim_isInfix piece).trans <| (split_isInfix hpiece).trans <| (trim_isInfix _).trans <|
    eraseFront_isInfix.trans <| (trim_isInfix part).trans hsource

/-! ## Lists -/

theorem tagless_listItems {body : Text} (h : Tagless body) :
    Tagless (listItems body).1 ∧ ∀ item ∈ (listItems body).2, Tagless item := by
  have hpieces : ∀ x ∈ (fullCommand "item").split body.trim, Tagless x := fun x hx =>
    h.of_part ((split_isInfix hx).trans (trim_isInfix body))
  rw [listItems]
  split
  · exact ⟨tagless_of_not_mem (by simp), by simp⟩
  · rename_i lead items hsplit
    rw [hsplit, List.forall_mem_cons] at hpieces
    refine ⟨hpieces.1, fun item hitem => ?_⟩
    obtain ⟨piece, hpiece, rfl⟩ := List.mem_map.1 hitem
    exact (hpieces.2 piece hpiece).of_part (trim_isInfix piece)

theorem tagless_termAndText {s : Text} (h : Tagless s) :
    Tagless (termAndText s).1 ∧ Tagless (termAndText s).2 := by
  rw [termAndText]
  split
  · rename_i term text hfind
    have hs := Text.find?_eq_some hfind
    exact ⟨h.of_part ⟨[], ']' :: text, by simpa using hs.symm⟩,
      h.of_part ⟨term ++ [']'], [], by simpa using hs.symm⟩⟩
  · exact ⟨tagless_of_not_mem (by simp), h⟩

theorem tagless_listTerms {body : Text} (h : Tagless body) :
    Tagless (listTerms body).1 ∧ ∀ e ∈ (listTerms body).2, Tagless e.1 ∧ Tagless e.2 := by
  have hpieces : ∀ x ∈ (word "\\item[").split body.trim, Tagless x := fun x hx =>
    h.of_part ((split_isInfix hx).trans (trim_isInfix body))
  rw [listTerms]
  split
  · exact ⟨tagless_of_not_mem (by simp), by simp⟩
  · rename_i lead segments hsplit
    rw [hsplit, List.forall_mem_cons] at hpieces
    refine ⟨hpieces.1, fun e he => ?_⟩
    obtain ⟨segment, hsegment, rfl⟩ := List.mem_map.1 he
    exact tagless_termAndText (hpieces.2 segment hsegment)

theorem tagless_itemsHtml {tag style : String} (h : (tag, style) ∈ blockElements) {items : List Text}
    (hitems : ∀ item ∈ items, Tagless item) : Tagless (itemsHtml tag style items) := by
  rw [itemsHtml, tagless_styled h, tagless_flatMap fun _ _ => enclosed_styled]
  exact fun item hitem => (tagless_styled (by simp [blockElements])).2 (hitems item hitem)

theorem tagless_termsHtml {terms : List (Text × Text)} (h : ∀ e ∈ terms, Tagless e.1 ∧ Tagless e.2) :
    Tagless (termsHtml terms) := by
  have henclosed : ∀ e ∈ terms, Enclosed (Html.styled "dt" Style.term e.1 ++
      Html.styled "dd" Style.termText e.2.trim) := fun e _ =>
    Enclosed.append enclosed_styled enclosed_styled
  rw [termsHtml, tagless_styled (by simp [blockElements]), tagless_flatMap henclosed]
  intro e he
  refine (tagless_enclosed enclosed_styled).2 ⟨(tagless_styled (by simp [blockElements])).2 (h e he).1,
    (tagless_styled (by simp [blockElements])).2 ((h e he).2.of_part (trim_isInfix _))⟩

/-- A source without tags is shown without tags, and so is the text in front of its first item. -/
theorem tagless_listHtml (kind : ListKind) {body : Text} (h : Tagless body) :
    Tagless (listHtml kind body).1 ∧ Tagless (listHtml kind body).2 := by
  cases kind with
  | description => exact ⟨(tagless_listTerms h).1, tagless_termsHtml (tagless_listTerms h).2⟩
  | itemize =>
    exact ⟨(tagless_listItems h).1, tagless_itemsHtml (by simp [blockElements]) (tagless_listItems h).2⟩
  | enumerate =>
    exact ⟨(tagless_listItems h).1, tagless_itemsHtml (by simp [blockElements]) (tagless_listItems h).2⟩

end LatexPreview
