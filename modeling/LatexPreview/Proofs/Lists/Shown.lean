import Mathlib
import LatexPreview.Proofs.Lists.Items
import LatexPreview.Proofs.Text.Passage

/-!
# What lists are shown as

What a tree is shown as is a passage, with a mark for each hole: the texts in the holes are not looked
at, as long as they do not start or end with blanks.

* `Solid` texts are not empty, and neither start nor end with a blank
* `exists_trim_passage`: to trim a passage is to take blanks off its ends
* `ListBody.exists_shown_passage`, `ListBody.exists_html_passage`: the passage that a tree is
  shown as
-/

namespace LatexPreview

open Text Passage

/-! ## Trimming passages -/

/-- The text is not empty, and neither starts nor ends with a blank. -/
def Solid (s : Text) : Prop := s ≠ [] ∧ Firm s

/-- Is the piece a blank? -/
def Piece.isBlank {α : Type} : Piece α → Bool
  | char c => LatexPreview.isBlank c
  | mention _ => false

variable {α : Type} {g : Passage α} {content : α → Text}

theorem solid_fill_piece {x : Piece α} (hx : x.isBlank = false)
    (hcontent : ∀ a ∈ x.mark?, Solid (content a)) : Solid (x.fill content) := by
  cases x with
  | char c => exact ⟨by simp [Piece.fill], by simpa [Firm, Piece.fill, Piece.isBlank] using hx⟩
  | mention a => exact hcontent a rfl

theorem blank_fill (hg : ∀ x ∈ g, x.isBlank = true) : ∀ c ∈ fill content g, isBlank c = true := by
  intro c hc
  obtain ⟨x, hx, hc⟩ := List.mem_flatMap.1 hc
  cases x with
  | char d => exact List.mem_singleton.1 hc ▸ hg _ hx
  | mention a => exact absurd (hg _ hx) (by simp [Piece.isBlank])

theorem mentions_eq_nil_of_blank (hg : ∀ x ∈ g, x.isBlank = true) : mentions g = [] := by
  refine List.filterMap_eq_nil_iff.2 fun x hx => ?_
  cases x with
  | char d => rfl
  | mention a => exact absurd (hg _ hx) (by simp [Piece.isBlank])

/-- To trim a passage is to take blanks off its ends. -/
theorem exists_trim_passage (g : Passage α) : ∃ m, mentions m = mentions g ∧
    ∀ content, (∀ a ∈ mentions g, Solid (content a)) → (fill content g).trim = fill content m := by
  obtain ⟨l, m, t, rfl, hl, ht, hfirst, hlast⟩ : ∃ l m t, g = l ++ (m ++ t) ∧
      (∀ x ∈ l, x.isBlank = true) ∧ (∀ x ∈ t, x.isBlank = true) ∧
      (∀ x ∈ m.head?, x.isBlank = false) ∧ ∀ x ∈ m.getLast?, x.isBlank = false := by
    let rest := g.dropWhile Piece.isBlank
    refine ⟨g.takeWhile Piece.isBlank, rest.rdropWhile Piece.isBlank, rest.rtakeWhile Piece.isBlank,
      ?_, fun x hx => List.mem_takeWhile_imp hx, fun x hx => List.mem_rtakeWhile_imp hx,
      fun x hx => ?_, fun x hx => ?_⟩
    · rw [List.rdropWhile_append_rtakeWhile]
      exact (List.takeWhile_append_dropWhile ..).symm
    · have hhead : rest.head? = some x := by
        rw [← List.rdropWhile_append_rtakeWhile (p := Piece.isBlank) (l := rest), List.head?_append, hx]
        rfl
      have hnot := List.head?_dropWhile_not Piece.isBlank g
      rw [show g.dropWhile Piece.isBlank = rest from rfl, hhead] at hnot
      simpa using hnot
    · obtain ⟨hne, rfl⟩ := List.mem_getLast?_eq_getLast hx
      simpa using List.rdropWhile_last_not Piece.isBlank rest hne
  have hmentions : mentions (l ++ (m ++ t)) = mentions m := by
    simp [mentions_eq_nil_of_blank hl, mentions_eq_nil_of_blank ht]
  refine ⟨m, hmentions.symm, fun content hcontent => ?_⟩
  rw [hmentions] at hcontent
  rw [fill_append, fill_append]
  refine Firm.trim_eq ⟨fun c hc => ?_, fun c hc => ?_⟩ (blank_fill hl) (blank_fill ht)
  · cases m with
    | nil => simp at hc
    | cons x m =>
      obtain ⟨hne, hfirm⟩ := solid_fill_piece (hfirst x rfl)
        fun a ha => hcontent a (List.mem_filterMap.2 ⟨x, List.mem_cons_self, ha⟩)
      have hhead : (fill content (x :: m)).head? = (x.fill content).head? :=
        List.head?_append_of_ne_nil _ hne
      exact hfirm.1 c (hhead ▸ hc)
  · rcases List.eq_nil_or_concat' m with rfl | ⟨m, x, rfl⟩
    · simp at hc
    · obtain ⟨hne, hfirm⟩ := solid_fill_piece (hlast x (by simp))
        fun a ha => hcontent a (List.mem_filterMap.2 ⟨x, by simp, ha⟩)
      have hend : (fill content (m ++ [x])).getLast? = (x.fill content).getLast? := by
        rw [fill_append, show fill content [x] = x.fill content by simp [fill]]
        exact List.getLast?_append_of_ne_nil _ hne
      exact hfirm.2 c (hend ▸ hc)

/-! ## Elements around passages -/

/-- What is put around a text starts and ends with something other than a blank. -/
structure Wraps (f : Text → Text) (front back : Text) : Prop where
  eq : ∀ s, f s = front ++ (s ++ back)
  front : Solid front
  back : Solid back

theorem solid_append {s t u : Text} (hs : Solid s) (hu : Solid u) : Solid (s ++ (t ++ u)) := by
  refine ⟨by simp [hs.1], fun c hc => hs.2.1 c ?_, fun c hc => hu.2.2 c ?_⟩
  · rwa [List.head?_append_of_ne_nil _ hs.1] at hc
  · rwa [← List.append_assoc, List.getLast?_append_of_ne_nil _ hu.1] at hc

/-- An element starts and ends with an angle bracket. -/
theorem exists_wraps_styled (tag style : String) :
    ∃ front back, Wraps (Html.styled tag style) front back := by
  have hbracket : ∀ {c : Char}, c = '<' ∨ c = '>' → isBlank c = false := by
    rintro c (rfl | rfl) <;> decide
  have hsolid : ∀ x : Text, Solid ('<' :: (x ++ ['>'])) := fun x =>
    ⟨by simp, by simp [Firm, hbracket, List.getLast?_cons, List.getLast?_append]⟩
  refine ⟨_, _, ?_, hsolid (tag.toList ++ Html.attr "style" style.toList), hsolid ('/' :: tag.toList)⟩
  intro s
  simp [Html.styled, Html.element]

theorem ListKind.exists_wraps_frame (kind : ListKind) : ∃ front back, Wraps kind.frame front back := by
  cases kind with
  | itemize => exact exists_wraps_styled "ul" _
  | enumerate => exact exists_wraps_styled "ol" _
  | description => exact exists_wraps_styled "dl" _

theorem ItemMark.exists_wraps_html {kind : ListKind} (mark : ItemMark kind) :
    ∃ front back, ∀ s : Text, mark.html s = front ++ (s.trim ++ back) := by
  have hitem : ∃ front back, ∀ s : Text,
      Html.styled "li" Style.listItem s.trim = front ++ (s.trim ++ back) := by
    obtain ⟨front, back, h⟩ := exists_wraps_styled "li" Style.listItem
    exact ⟨front, back, fun s => h.eq _⟩
  cases mark with
  | bullet | number => exact hitem
  | term t ht =>
    obtain ⟨front, back, h⟩ := exists_wraps_styled "dd" Style.termText
    exact ⟨Html.styled "dt" Style.term t ++ front, back, fun s => by rw [html, h.eq, List.append_assoc]⟩

/-! ## Trees as passages -/

/-- The passages that a tree is shown as. In front of the first item there are no holes. -/
theorem ListBody.exists_shown_passage {kind : ListKind} {inItem : Bool} (body : ListBody α kind inItem) :
    ∃ first later : Passage α, (inItem = false → mentions first = []) ∧
      mentions first ++ mentions later = body.holes ∧
      ∀ content, (∀ a ∈ body.holes, Solid (content a)) →
        body.shown content = (fill content first, fill content later) := by
  induction body with
  | nil => exact ⟨[], [], fun _ => rfl, rfl, fun _ _ => rfl⟩
  | blank c _ more ih | char c _ more ih =>
    obtain ⟨first, later, hlead, hmentions, hshown⟩ := ih
    refine ⟨.char c :: first, later, hlead, hmentions, fun content hcontent => ?_⟩
    rw [shown, hshown content hcontent]
    rfl
  | item mark more ih =>
    obtain ⟨first, later, -, hmentions, hshown⟩ := ih
    obtain ⟨m, hm, htrim⟩ := exists_trim_passage first
    obtain ⟨front, back, hhtml⟩ := mark.exists_wraps_html
    refine ⟨[], ofText front ++ (m ++ (ofText back ++ later)), fun _ => rfl, ?_,
      fun content hcontent => ?_⟩
    · simpa [holes, hm] using hmentions
    · have hfirst : ∀ a ∈ mentions first, Solid (content a) := fun a ha =>
        hcontent a (by rw [holes, ← hmentions]; simp [ha])
      rw [shown, hshown content hcontent, hhtml, htrim content hfirst]
      simp
  | hole a more ih =>
    obtain ⟨first, later, -, hmentions, hshown⟩ := ih
    refine ⟨ofText "\n\n".toList ++ (.mention a :: (ofText "\n\n".toList ++ first)), later, by simp, ?_,
      fun content hcontent => ?_⟩
    · simpa [holes] using hmentions
    · rw [shown, hshown content fun b hb => hcontent b (List.mem_cons_of_mem _ hb)]
      simp [apart]
  | list inner body more ihbody ihmore =>
    obtain ⟨lead, items, hlead, hbody, hitems⟩ := ihbody
    obtain ⟨first, later, -, hmentions, hshown⟩ := ihmore
    obtain ⟨front, back, hframe⟩ := inner.exists_wraps_frame
    refine ⟨ofText "\n\n".toList ++ (ofText front ++ (items ++ (ofText back ++
      (ofText "\n\n".toList ++ first)))), later, by simp, ?_, fun content hcontent => ?_⟩
    · rw [holes, ← hbody, hlead rfl, ← hmentions]
      simp
    · rw [shown, hitems content fun b hb => hcontent b (List.mem_append_left _ hb),
        hshown content fun b hb => hcontent b (List.mem_append_right _ hb), hframe.eq]
      simp [apart]

/-- The passage that a whole list is shown as. -/
theorem ListBody.exists_html_passage {kind : ListKind} (body : ListBody α kind false) :
    ∃ g : Passage α, mentions g = body.holes ∧ (∀ content, Solid (fill content g)) ∧
      ∀ content, (∀ a ∈ body.holes, Solid (content a)) → body.html content = fill content g := by
  obtain ⟨lead, items, hlead, hmentions, hshown⟩ := body.exists_shown_passage
  obtain ⟨front, back, hframe⟩ := kind.exists_wraps_frame
  refine ⟨ofText front ++ (items ++ ofText back), ?_, fun content => ?_, fun content hcontent => ?_⟩
  · rw [← hmentions, hlead rfl]
    simp
  · simpa using solid_append (t := fill content items) hframe.front hframe.back
  · rw [html, hshown content hcontent, hframe.eq]
    simp

end LatexPreview
