import Mathlib
import LatexPreview.Proofs.Convert.ListStage
import LatexPreview.Proofs.Lists.Tree
import LatexPreview.Proofs.Pattern.Front
import LatexPreview.Proofs.Pattern.Trim

/-!
# Lists without lists in them

The body of a list that holds no other one is divided at what its items start with.  So what is made
of it is the element of the list, with nothing but blanks in front.

* `ListKind.itemPattern` is what the items of a kind of list start with
* `ListBody.exists_items`: the parts of a body are its items
* `exists_listHtml_eq`: a list is converted into its element
-/

namespace LatexPreview

open Pattern Text

/-! ## What items start with -/

/-- What the items of a kind of list start with. -/
def ListKind.itemPattern : ListKind → Pattern
  | itemize | enumerate => fullCommand "item"
  | description => word "\\item["

/-- What is shown of a part of the body between the starts of items. -/
def ListKind.itemHtml : ListKind → Text → Text
  | itemize | enumerate => fun s => Html.styled "li" Style.listItem s.trim
  | description => termHtml

/-- What is left of the mark of an item behind its start. -/
def ItemMark.rest {kind : ListKind} : ItemMark kind → Text
  | bullet | number => [' ']
  | term s _ => s ++ [']']

theorem ItemMark.not_mem_rest {kind : ListKind} (mark : ItemMark kind) : '\\' ∉ mark.rest := by
  cases mark with
  | bullet | number => simp [rest]
  | term s hs =>
    have hplain : '\\' ∉ s := fun hmem => absurd (hs _ hmem) (by simp)
    simp [rest, hplain]

theorem ListKind.trims_itemPattern (kind : ListKind) : kind.itemPattern.Trims := by
  cases kind with
  | itemize | enumerate => exact trims_fullCommand (by simp [isBlank])
  | description => exact trims_lit (by decide) (by simp [isBlank])

theorem ListKind.opens_itemPattern (kind : ListKind) : kind.itemPattern.Opens '\\' := by
  cases kind with
  | itemize | enumerate => exact (opens_command _).append _
  | description => exact opens_lit _ _

theorem ListKind.edges_itemPattern (kind : ListKind) (b b' : Option Char) :
    kind.itemPattern.EdgesAgree b b' := by
  cases kind with
  | itemize | enumerate => exact ⟨edgesAgree_lit _, fun _ => rfl⟩
  | description => exact edgesAgree_lit _

/-- An item starts at its mark. -/
theorem ItemMark.exists_start {kind : ListKind} (mark : ItemMark kind) :
    ∃ w, mark.text = w ++ mark.rest ∧ w ≠ [] ∧ ∀ b s, ∃ stop,
      kind.itemPattern.at? b (w ++ (mark.rest ++ s)) = some stop ∧ stop.rest = mark.rest ++ s := by
  cases mark with
  | bullet | number =>
    refine ⟨'\\' :: "item".toList, by decide, by decide, fun b s => Option.map_eq_some_iff.1 ?_⟩
    exact (at?_fullCommand "item" b _).trans (by rw [Text.dropFront?_append]; rfl)
  | term t ht =>
    refine ⟨"\\item[".toList, by simp [text, itemCommand, rest], by decide,
      fun b s => Option.map_eq_some_iff.1 ?_⟩
    exact (at?_lit _ b _).trans (Text.dropFront?_append _ _)

/-- What is shown of an item has nothing to do with blanks at its end. -/
theorem ItemMark.itemHtml_eq {kind : ListKind} (mark : ItemMark kind) {part t content : Text}
    (h : mark.rest ++ content = part ++ t) (ht : ∀ c ∈ t, isBlank c = true) :
    kind.itemHtml part = mark.html content := by
  have htrim : ∀ {part content : Text}, content = part ++ t → part.trim = content.trim := by
    rintro part _ rfl
    exact (trim_blanks (l := []) (by simp) ht).symm
  cases mark with
  | bullet | number =>
    have hblank : Text.trim (' ' :: content) = content.trim := by
      simpa using trim_blanks (l := [' ']) (s := content) (t := []) (by simp [isBlank]) (by simp)
    exact congrArg (Html.styled "li" Style.listItem) ((htrim h).trans hblank)
  | term s hs =>
    have hbracket : ']' ∉ s := fun hmem => absurd (hs _ hmem) (by simp)
    have hfind : Text.find? [']'] (part ++ t) = some (s, content) := by
      rw [← h]
      simpa [rest] using find?_append (s := content) (avoids_of_not_mem (w := []) hbracket)
    have hdisjoint : ∀ c ∈ [']'], c ∉ t := by
      intro c hc hmem
      obtain rfl := List.mem_singleton.1 hc
      exact absurd (ht _ hmem) (by decide)
    rw [find?_blanks (by simp) hdisjoint] at hfind
    obtain ⟨⟨s', content'⟩, hfound, heq⟩ := Option.map_eq_some_iff.1 hfind
    obtain ⟨rfl, rfl⟩ := Prod.mk.inj heq
    have hsplit : termAndText part = (s', content') := by rw [termAndText, hfound]
    rw [ListKind.itemHtml, termHtml, hsplit, html, htrim rfl]

/-! ## Parts of a body -/

namespace ListBody

variable {α : Type} {content : α → Text} {kind : ListKind} {inItem : Bool}

/-- Where no item starts, a part goes on. -/
theorem slicedFrom_plain {kind : ListKind} {x s : Text} (hx : '\\' ∉ x) (b : Option Char) :
    kind.itemPattern.slicedFrom b (x ++ s) =
      (kind.itemPattern.slicedFrom (x.getLast?.or b) s).prepend x :=
  slicedFrom_skips kind.trims_itemPattern.consumes (kind.opens_itemPattern.skips hx s)

/-- The parts of a body are its items, behind what is left of the item in front of them. -/
theorem exists_items (hcontent : ∀ a, '\\' ∉ content a) (body : ListBody α kind inItem)
    (hlists : body.lists = 0) (b : Option Char) : ∃ items : List (ItemMark kind × Text),
      (kind.itemPattern.slicedFrom b (body.text content)).gaps =
        (body.shown content).1 :: items.map (fun item => item.1.rest ++ item.2) ∧
      (body.shown content).2 = items.flatMap fun item => item.1.html item.2 := by
  have hgoes : ∀ {kind : ListKind} {x s first : Text} {more : List Text} {b : Option Char},
      '\\' ∉ x → (kind.itemPattern.slicedFrom (x.getLast?.or b) s).gaps = first :: more →
      (kind.itemPattern.slicedFrom b (x ++ s)).gaps = (x ++ first) :: more := by
    intro kind x s first more b hx hgaps
    rw [slicedFrom_plain hx, Sliced.gaps_prepend hgaps]
  induction body generalizing b with
  | nil =>
    refine ⟨[], ?_, rfl⟩
    rw [text, slicedFrom_nil (ListKind.trims_itemPattern _).consumes]
    rfl
  | blank c hc more ih =>
    obtain ⟨items, hgaps, hshown⟩ := ih hlists (some c)
    have hplain : '\\' ∉ [c] := by
      rintro hmem
      obtain rfl := List.mem_singleton.1 hmem
      exact absurd hc (by decide)
    exact ⟨items, hgoes hplain hgaps, hshown⟩
  | char c hc more ih =>
    obtain ⟨items, hgaps, hshown⟩ := ih hlists (some c)
    have hplain : '\\' ∉ [c] := by
      rintro hmem
      obtain rfl := List.mem_singleton.1 hmem
      exact hc (by simp)
    exact ⟨items, hgoes hplain hgaps, hshown⟩
  | hole a more ih =>
    obtain ⟨items, hgaps, hshown⟩ := ih hlists ((apart (content a)).getLast?.or b)
    exact ⟨items, hgoes (not_mem_apart (by decide) (hcontent a)) hgaps, hshown⟩
  | @item kind _ mark more ih =>
    obtain ⟨w, htext, hw, hstart⟩ := mark.exists_start
    obtain ⟨stop, hstop, hrest⟩ := hstart b (more.text content)
    obtain ⟨items, hgaps, hshown⟩ := ih hlists (mark.rest.getLast?.or (w.getLast?.or b))
    refine ⟨(mark, (more.shown content).1) :: items, ?_, ?_⟩
    · rw [text, htext, List.append_assoc, slicedFrom_hit kind.trims_itemPattern.consumes hw hstop hrest,
        Sliced.gaps, hgoes mark.not_mem_rest hgaps]
      rfl
    · rw [shown, hshown]
      rfl
  | list inner body more => exact absurd hlists (by simp [lists])

theorem blank_of_outside (body : ListBody α kind inItem) (h : inItem = false) :
    ∀ c ∈ (body.shown content).1, isBlank c = true := by
  induction body with
  | nil | item => exact fun c hc => absurd hc List.not_mem_nil
  | blank c hc more ih =>
    intro d hd
    rcases List.mem_cons.1 hd with rfl | hd
    · exact hc
    · exact ih rfl d hd
  | char | hole | list => exact absurd h (by simp)

/-- In front of the first item there are only blanks. -/
theorem blank_shown (body : ListBody α kind false) : ∀ c ∈ (body.shown content).1, isBlank c = true :=
  body.blank_of_outside rfl

/-! ## The element of a list -/

theorem listHtml_eq (kind : ListKind) (body : Text) : ∃ lead parts,
    kind.itemPattern.split body.trim = lead :: parts ∧
      listHtml kind body = (lead, kind.frame (parts.flatMap kind.itemHtml)) := by
  obtain ⟨lead, parts, hparts⟩ : ∃ lead parts, kind.itemPattern.split body.trim = lead :: parts :=
    List.exists_cons_of_ne_nil (by simp [split, Cut.parts])
  refine ⟨lead, parts, hparts, ?_⟩
  cases kind with
  | itemize | enumerate =>
    have hitems : (fullCommand "item").split body.trim = lead :: parts := hparts
    simp only [listHtml, listItems, hitems, itemsHtml, List.flatMap_map]
    rfl
  | description =>
    have hterms : (word "\\item[").split body.trim = lead :: parts := hparts
    simp only [listHtml, listTerms, hterms, termsHtml, List.flatMap_map]
    rfl

/-- A list that holds no other one is converted into its element, and nothing but blanks is left in
front of it. -/
theorem exists_listHtml_eq (hcontent : ∀ a, '\\' ∉ content a) (body : ListBody α kind false)
    (hlists : body.lists = 0) : ∃ lead, (∀ c ∈ lead, isBlank c = true) ∧
      listHtml kind (body.text content) = (lead, body.html content) := by
  obtain ⟨lead, parts, hparts, hhtml⟩ := listHtml_eq kind (body.text content)
  obtain ⟨items, hgaps, hshown⟩ := body.exists_items hcontent hlists none
  obtain ⟨l, first, more, hwhole, -, hsame⟩ :=
    kind.trims_itemPattern.exists_split_trim (fun b _ => kind.edges_itemPattern b none) (body.text content)
  rw [hgaps] at hwhole
  obtain ⟨hfirst, rfl⟩ := List.cons.inj hwhole
  rw [hparts] at hsame
  obtain ⟨⟨t, hlead, -⟩, hitems⟩ := List.forall₂_cons.1 hsame
  have hblank : ∀ c ∈ lead, isBlank c = true := fun c hc =>
    body.blank_shown c (by rw [hfirst, hlead]; simp [hc])
  have hall : ∀ (parts : List Text) (items : List (ItemMark kind × Text)),
      List.Forall₂ (fun x y => ∃ t, y = x ++ t ∧ ∀ c ∈ t, isBlank c = true) parts
        (items.map fun item => item.1.rest ++ item.2) →
      parts.flatMap kind.itemHtml = items.flatMap fun item => item.1.html item.2 := by
    intro parts items h
    induction items generalizing parts with
    | nil =>
      obtain rfl := List.forall₂_nil_right_iff.1 h
      rfl
    | cons item items ih =>
      obtain ⟨part, later, ⟨t, hpart, ht⟩, hlater, rfl⟩ := List.forall₂_cons_right_iff.1 h
      rw [List.flatMap_cons, List.flatMap_cons, ih later hlater, item.1.itemHtml_eq hpart ht]
  refine ⟨lead, hblank, ?_⟩
  rw [hhtml, html, hshown, hall parts items hitems]

end ListBody

end LatexPreview
