import Mathlib
import LatexPreview.Convert.Lists
import LatexPreview.Proofs.Convert.Shelves

/-!
# Lists

A list shares the tokens of its source among its items.  What stands in front of the first
item becomes a paragraph of its own, so that a list leaves one block or two.

* `exists_listScripts`: items spare tokens
* `kept_formatListsFrom`: a pass keeps a sound layout, and so do all of them
-/

namespace LatexPreview

open Script Pattern

variable {wanted : Nat → Prop}

/-! ## Items -/

/-- The text in front of the first item, and the items between the tags of a list. -/
theorem exists_listScripts {p : Pattern} (hp : p.Sharp) {item frame : Text → Text}
    (hitem : Renders item) (hframe : Renders frame) {g : Script} (hg : Sealed (plain g)) :
    ∃ lead list, (text lead, text list) =
        (match p.split (text g).trim with
        | [] => ([], frame [])
        | first :: more => (first, frame (more.flatMap item))) ∧
      (tokens lead ++ tokens list).Sublist (tokens g) ∧ Sealed (plain lead) ∧ Fits list := by
  obtain ⟨gs, htexts, htokens, hgs⟩ := (divides_split hp.severs).comp narrows_trim g hg
  simp only [← htexts]
  cases gs with
  | nil =>
    obtain ⟨b, htext, hb, hfits⟩ := hframe [] sealed_nil
    exact ⟨[], b, by simp [htext], (List.sublist_nil.1 hb) ▸ List.nil_sublist _, sealed_nil, hfits⟩
  | cons first more =>
    have hrest : ∀ x ∈ more, Sealed (plain x) := fun x hx => hgs x (by simp [hx])
    obtain ⟨items, htext, hitems, hsealed⟩ := hitem.flatMap hrest
    obtain ⟨b, htext', hb, hfits⟩ := hframe items hsealed
    refine ⟨first, b, by simp [htext', htext], ?_, hgs first (by simp), hfits⟩
    refine ((List.Sublist.refl _).append (hb.trans hitems)).trans ?_
    simpa using htokens

/-- A term and what is said about it. -/
def termHtml (segment : Text) : Text :=
  Html.styled "dt" Style.term (termAndText segment).1 ++
    Html.styled "dd" Style.termText (termAndText segment).2.trim

/-- A segment is divided at its first closing bracket, or not at all. -/
theorem exists_termAndText {g : Script} (hg : Sealed (plain g)) :
    ∃ ga gb, termAndText (text g) = (text ga, text gb) ∧
      (tokens ga ++ tokens gb).Sublist (tokens g) ∧ Sealed (plain ga) ∧ Sealed (plain gb) := by
  rw [termAndText]
  split
  · rename_i term rest hfind
    have hsplit : text g = term ++ ']' :: rest := by simpa using Text.find?_eq_some hfind
    obtain ⟨ga, gb, rfl, rfl, rfl⟩ := split_at (by decide) hsplit
    refine ⟨ga, gb, rfl, by simp, hg.mono (plain_isInfix ?_), hg.mono (plain_isInfix ?_)⟩
    · exact ⟨[], .char ']' :: gb, by simp⟩
    · exact ⟨ga ++ [.char ']'], [], by simp⟩
  · exact ⟨[], g, rfl, by simp, sealed_nil, hg⟩

theorem renders_termHtml : Renders termHtml := by
  have hterm : Renders (Html.styled "dt" Style.term) :=
    renders_styled (by decide) (by decide)
  have hrest : Renders fun s => Html.styled "dd" Style.termText s.trim :=
    (renders_styled (by decide) (by decide)).comp narrows_trim
  intro g hg
  obtain ⟨ga, gb, hsplit, hsub, ha, hb⟩ := exists_termAndText hg
  obtain ⟨bt, ht, htokens, hfits⟩ := hterm ga ha
  obtain ⟨bd, hd, htokens', hfits'⟩ := hrest gb hb
  refine ⟨bt ++ bd, by simp [termHtml, hsplit, ht, hd], ?_, hfits.append hfits'⟩
  rw [tokens_append]
  exact (htokens.append htokens').trans hsub

/-! ## Lists -/

theorem sharp_item : (fullCommand "item").Sharp :=
  ⟨⟨'\\', by decide, (opens_command "item").append _⟩, ['m'], by simp [TokenChar],
    (closesIn_lit "\\ite".toList 'm').edge _⟩

theorem sharp_term : (word "\\item[").Sharp :=
  ⟨⟨'\\', by decide, opens_lit '\\' "item[".toList⟩, ['['], by simp [TokenChar],
    closesIn_lit "\\item".toList '['⟩

theorem exists_itemsScripts {tag style : String} (htag : Quiet tag.toList)
    (hstyle : Quiet style.toList) {g : Script} (hg : Sealed (plain g)) :
    ∃ lead list, (text lead, text list) =
        ((listItems (text g)).1, itemsHtml tag style (listItems (text g)).2) ∧
      (tokens lead ++ tokens list).Sublist (tokens g) ∧ Sealed (plain lead) ∧ Fits list := by
  have hitem : Renders fun s => Html.styled "li" Style.listItem s.trim :=
    (renders_styled (by decide) (by decide)).comp narrows_trim
  obtain ⟨lead, list, htexts, hrest⟩ :=
    exists_listScripts sharp_item hitem (renders_styled htag hstyle) hg
  refine ⟨lead, list, htexts.trans ?_, hrest⟩
  rw [listItems]
  cases (fullCommand "item").split (text g).trim with
  | nil => rfl
  | cons first more => simp [itemsHtml, List.flatMap_map]

theorem exists_termsScripts {g : Script} (hg : Sealed (plain g)) :
    ∃ lead list, (text lead, text list) =
        ((listTerms (text g)).1, termsHtml (listTerms (text g)).2) ∧
      (tokens lead ++ tokens list).Sublist (tokens g) ∧ Sealed (plain lead) ∧ Fits list := by
  have hframe : Renders (Html.styled "dl" Style.termList) :=
    renders_styled (by decide) (by decide)
  obtain ⟨lead, list, htexts, hrest⟩ := exists_listScripts sharp_term renders_termHtml hframe hg
  refine ⟨lead, list, htexts.trans ?_, hrest⟩
  rw [listTerms]
  cases (word "\\item[").split (text g).trim with
  | nil => rfl
  | cons first more =>
    simp only [termsHtml, List.flatMap_map]
    rfl

/-- The two parts of a list as scripts. -/
theorem exists_listHtml (kind : ListKind) {g : Script} (hg : Sealed (plain g)) :
    ∃ lead list, (text lead, text list) = listHtml kind (text g) ∧
      (tokens lead ++ tokens list).Sublist (tokens g) ∧ Sealed (plain lead) ∧ Fits list := by
  cases kind with
  | itemize => exact exists_itemsScripts (by decide) (by decide) hg
  | enumerate => exact exists_itemsScripts (by decide) (by decide) hg
  | description => exact exists_termsScripts hg

/-! ## The stage -/

theorem opens_innermostList : innermostList.Opens '\\' :=
  ((((((((opens_command "begin").append _).append _).append _).append _).append _).append _).append
    _).append _

theorem yields_formatList {h : Hit} (hf : innermostList.Found h) {g : Script}
    (hg : text g = h.matched) (hsealed : Sealed (plain g)) :
    Yields wanted (tokens g) (formatList h) := by
  have hframes : innermostList.Frames "body" := by
    refine ((Frames.append ?_ ?_).append ?_).append ?_
    · exact frames_capture ((closesIn_one '}').prepend _) (by simp) ⟨trivial, trivial⟩
        (opens_command "end") (bare_lit _) (by simp)
    · exact trivial
    · exact trivial
    · exact trivial
  obtain ⟨gu, c, ga, d, gv, rfl, hga, -⟩ := frames_script hframes hf hg
  have hpart : ga <:+: gu ++ .char c :: (ga ++ .char d :: gv) :=
    ⟨gu ++ [.char c], .char d :: gv, by simp⟩
  obtain ⟨lead, list, htexts, htokens, hlead, hlist⟩ :=
    exists_listHtml (ListKind.ofName (h.get "env")) (hsealed.mono (plain_isInfix hpart))
  have hrun : formatList h = (do
      let lead ← paragraphBlock (text lead)
      let list ← addBlock (text list)
      pure (lead ++ list)) := by
    rw [formatList, ← hga, ← htexts]
  rw [hrun]
  refine (((shelves_paragraphBlock hlead).seq (Shelves.addBlock hlist)).mono ?_).yields
  exact .of_sublist (htokens.trans (tokens_sublist hpart.sublist))

theorem kept_listPass {d : Draft} {s : Text} (h : Kept wanted d s) :
    Kept wanted ((innermostList.replaceM formatList s).run d).2
      ((innermostList.replaceM formatList s).run d).1 := by
  exact h.replaceM opens_innermostList (by decide) ((closesIn_one '}').prepend _)
    (by simp [Edge, TokenChar])
    fun _ _ hf _ hg hsealed _ => yields_formatList hf hg hsealed

/-- Converting lists keeps a layout sound, by induction on the passes. -/
theorem kept_formatListsFrom (fuel : Nat) {d : Draft} {s : Text} (h : Kept wanted d s) :
    Kept wanted ((formatListsFrom fuel s).run d).2 ((formatListsFrom fuel s).run d).1 := by
  induction fuel generalizing d s with
  | zero => exact h
  | succ fuel ih =>
    have hpass := kept_listPass h
    rw [formatListsFrom, Drafting.run_bind]
    split
    · rename_i hsame
      rw [hsame] at hpass
      exact hpass
    · exact ih hpass

end LatexPreview
