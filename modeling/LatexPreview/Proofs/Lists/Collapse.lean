import Mathlib
import LatexPreview.Proofs.Convert.Growth
import LatexPreview.Proofs.Lists.Innermost
import LatexPreview.Proofs.Lists.Shown
import LatexPreview.Proofs.Placeholder.Expansion

/-!
# One pass over a tree of lists

A pass takes the innermost lists out of a tree.  What is left is a tree with holes in their place,
and the passages that have been stored are what the lists are shown as.

* `ListBody.collapse` is what a pass does with the source of a tree
* `Collapses` relates a tree to what a pass leaves of it
* `ListBody.exists_collapses`, `exists_collapses_list`: every pass is of this kind
-/

namespace LatexPreview

open Pattern Text Passage

/-- The token that stands in a hole. -/
def blockHole (n : Nat) : Text := placeholder Draft.blockName n

/-- A draft that holds nothing but blocks. -/
def blocksDraft (cs : List (Passage Nat)) : Draft :=
  { Draft.fresh with blocks := passageTable Draft.blockName cs }

variable {kind inner : ListKind} {inItem : Bool} {cs : List (Passage Nat)}

theorem not_mem_blockHole (n : Nat) : '\\' ∉ blockHole n :=
  not_mem_placeholder (by decide) (by decide) (by decide) n

theorem solid_blockHole (n : Nat) : Solid (blockHole n) := by
  have hlow : Solid "__".toList := ⟨by decide, by simp [Firm]; decide⟩
  have htoken : blockHole n =
      "__".toList ++ ((Draft.blockName ++ '_' :: Text.ofNat n) ++ "__".toList) := by
    simp [blockHole, placeholder]
  rw [htoken]
  exact solid_append hlow hlow

theorem addBlock_run (g : Passage Nat) :
    (addBlock (fill blockHole g)).run (blocksDraft cs) =
      (apart (blockHole cs.length), blocksDraft (cs ++ [g])) := by
  have hsize : (passageTable Draft.blockName cs).size = cs.length := passageTable_size _ _
  have htable : (passageTable Draft.blockName cs).store (fill blockHole g) =
      (blockHole cs.length, passageTable Draft.blockName (cs ++ [g])) := by
    rw [PlaceholderTable.store, hsize, passageTable, passageTable, List.map_append]
    rfl
  have hrun : (addBlock (fill blockHole g)).run (blocksDraft cs) =
      (apart ((passageTable Draft.blockName cs).store (fill blockHole g)).1,
        { Draft.fresh with
          blocks := ((passageTable Draft.blockName cs).store (fill blockHole g)).2 }) := rfl
  rw [hrun, htable]
  rfl

namespace ListBody

/-! ## The source of a tree -/

theorem listless_mark (mark : ItemMark kind) : Listless mark.text := fun s => mark.commands false s

theorem listless_hole (n : Nat) : Listless (apart (blockHole n)) :=
  .of_not_mem (not_mem_apart (by decide) (not_mem_blockHole n))

theorem listless_text (body : ListBody Nat kind inItem) (hlists : body.lists = 0) :
    Listless (body.text blockHole) := fun s =>
  body.commands_text not_mem_blockHole (.inr hlists) s

theorem listless_char {c : Char} (h : c ∉ ['\\', '$']) : Listless [c] := by
  refine .of_not_mem fun hmem => h ?_
  rw [← List.mem_singleton.1 hmem]
  simp

theorem listless_blank {c : Char} (h : isBlank c = true) : Listless [c] := by
  refine .of_not_mem fun hmem => ?_
  rw [← List.mem_singleton.1 hmem] at h
  exact absurd h (by decide)

theorem opensList_text (body : ListBody Nat kind inItem) (hlists : body.lists ≠ 0) :
    OpensList (body.text blockHole) := by
  induction body with
  | nil => exact absurd rfl hlists
  | blank c hc more ih => exact (ih hlists).prepend (listless_blank hc)
  | char c hc more ih => exact (ih hlists).prepend (listless_char hc)
  | item mark more ih => exact (ih hlists).prepend (listless_mark mark)
  | hole n more ih => exact (ih hlists).prepend (listless_hole n)
  | list inner body more => exact (opensList_tagged inner _).append _

/-! ## The pass -/

/-- A list without lists in it is taken out; of another one, the tags are left. -/
def collapseWith (collapse : Drafting Text) (inner : ListKind) (body : ListBody Nat inner false) :
    Drafting Text :=
  if body.lists = 0 then formatKind inner (body.text blockHole) else inner.tagged <$> collapse

/-- The innermost lists are taken out of a source. -/
def collapse {kind : ListKind} {inItem : Bool} : ListBody Nat kind inItem → Drafting Text
  | nil => pure []
  | blank c _ more | char c _ more => ([c] ++ ·) <$> more.collapse
  | item mark more => (mark.text ++ ·) <$> more.collapse
  | hole n more => (apart (blockHole n) ++ ·) <$> more.collapse
  | list inner body more => do
    let u ← collapseWith body.collapse inner body
    let v ← more.collapse
    pure (u ++ v)

theorem rewrites_collapseWith (body : ListBody Nat inner false)
    (h : ∀ s, innermostList.Rewrites formatList (body.text blockHole) s body.collapse) (s : Text) :
    innermostList.Rewrites formatList (inner.tagged (body.text blockHole)) s
      (collapseWith body.collapse inner body) := by
  rw [collapseWith]
  split
  · rename_i hlists
    exact rewrites_innermost (body.listless_text hlists) inner s
  · rename_i hlists
    exact rewrites_outer (body.opensList_text hlists) h inner s

/-- A pass over the source of a tree takes out its innermost lists. -/
theorem rewrites_collapse (body : ListBody Nat kind inItem) (s : Text) :
    innermostList.Rewrites formatList (body.text blockHole) s body.collapse := by
  induction body generalizing s with
  | nil => exact rewrites_plain (.of_not_mem (by simp [text])) s
  | blank c hc more ih => exact rewrites_plain_append (listless_blank hc) (ih s)
  | char c hc more ih => exact rewrites_plain_append (listless_char hc) (ih s)
  | item mark more ih => exact rewrites_plain_append (listless_mark mark) (ih s)
  | hole n more ih => exact rewrites_plain_append (listless_hole n) (ih s)
  | list inner body more ihbody ihmore =>
    exact (rewrites_collapseWith body ihbody _).append (ihmore s)

/-! ## What is left -/

/-- What a pass leaves of a tree, and the passages that it stores behind some others. -/
structure Collapses (first : Nat) (body body' : ListBody Nat kind inItem) (new : List (Passage Nat)) :
    Prop where
  /-- Each passage has been a list. -/
  lists_eq : body'.lists + new.length = body.lists
  /-- As long as there are lists, some of them are innermost. -/
  progress : body.lists ≠ 0 → new ≠ []
  /-- The tags of each list have gone. -/
  commands_le : (body'.text blockHole).count '\\' + 2 * new.length ≤ (body.text blockHole).count '\\'
  /-- What has been in a hole is in a hole or in a passage, and so are the new passages. -/
  holes_perm : (body'.holes ++ new.flatMap mentions).Perm
    (body.holes ++ List.range' first new.length)
  /-- A passage mentions what has been in a hole. -/
  earlier : ∀ g ∈ new, ∀ n ∈ mentions g, n ∈ body.holes
  solid : ∀ g ∈ new, ∀ content, Solid (fill content g)
  /-- With the passages in the new holes, the tree is shown in the same way. -/
  shown_eq : ∀ content : Nat → Text, (∀ n ∈ body.holes, Solid (content n)) →
    (∀ i g, new[i]? = some g → content (first + i) = fill content g) →
    body'.shown content = body.shown content

/-- A list, or the hole that is left of it. -/
abbrev Node (inner : ListKind) := ListBody Nat inner false ⊕ Nat

/-- A list or a hole in front of the rest of an item. -/
def node (x : Node inner) (more : ListBody Nat kind true) : ListBody Nat kind true :=
  x.elim (fun body => list inner body more) fun n => hole n more

/-- A list or a hole with nothing behind it. -/
def alone (kind : ListKind) (x : Node inner) : ListBody Nat kind true := node x nil

/-- Where nothing is stored, nothing changes. -/
theorem Collapses.refl (first : Nat) (body : ListBody Nat kind inItem) (hlists : body.lists = 0) :
    Collapses first body body [] where
  lists_eq := rfl
  progress h := absurd hlists h
  commands_le := le_rfl
  holes_perm := by simp
  earlier := by simp
  solid := by simp
  shown_eq _ _ _ := rfl

/-- What stands in front of a tree stays as it is. -/
theorem Collapses.behind {first : Nat} {outer : ListKind} {inItem' : Bool}
    {f : ListBody Nat kind inItem → ListBody Nat outer inItem'} {x : Text} {l : List Nat}
    (hlists : ∀ t, (f t).lists = t.lists) (htext : ∀ t, (f t).text blockHole = x ++ t.text blockHole)
    (hholes : ∀ t, (f t).holes = l ++ t.holes)
    (hshown : ∀ content t t', t.shown content = t'.shown content →
      (f t).shown content = (f t').shown content)
    {body body' : ListBody Nat kind inItem} {new : List (Passage Nat)}
    (h : Collapses first body body' new) : Collapses first (f body) (f body') new where
  lists_eq := by rw [hlists, hlists, h.lists_eq]
  progress hne := h.progress (hlists body ▸ hne)
  commands_le := by
    have hless := h.commands_le
    rw [htext, htext, List.count_append, List.count_append]
    omega
  holes_perm := by
    rw [hholes, hholes, List.append_assoc, List.append_assoc]
    exact h.holes_perm.append_left l
  earlier g hg n hn := by
    rw [hholes]
    exact List.mem_append_right _ (h.earlier g hg n hn)
  solid := h.solid
  shown_eq content hcontent hnew := by
    refine hshown content _ _ (h.shown_eq content (fun n hn => hcontent n ?_) hnew)
    rw [hholes]
    exact List.mem_append_right _ hn

theorem count_tagged (kind : ListKind) (s : Text) :
    (kind.tagged s).count '\\' = s.count '\\' + 2 := by
  have hname : (kind.name.toList).count '\\' = 0 := List.count_eq_zero.2 (kind.not_mem_name (by simp))
  have hbegin : "\\begin".toList.count '\\' = 1 := by decide
  have hend : "\\end".toList.count '\\' = 1 := by decide
  simp only [ListKind.tagged, beginTag, endTag, braced, List.count_append, List.count_cons, hname, hbegin,
    hend, List.count_nil]
  simp
  omega

section Node

variable (x : Node inner) (more : ListBody Nat kind true) (content : Nat → Text)

theorem lists_node : (node x more).lists = (alone kind x).lists + more.lists := by
  cases x <;> simp [alone, node, lists, Nat.add_right_comm]

theorem text_node : (node x more).text content = (alone kind x).text content ++ more.text content := by
  cases x <;> simp [alone, node, text]

theorem holes_node : (node x more).holes = (alone kind x).holes ++ more.holes := by
  cases x <;> simp [alone, node, holes]

theorem shown_node : (node x more).shown content =
    (((alone kind x).shown content).1 ++ (more.shown content).1, (more.shown content).2) := by
  cases x <;> simp [alone, node, shown]

end Node

/-- A list and what stands behind it, one after the other. -/
theorem Collapses.append {first : Nat} {x y : Node inner} {more more' : ListBody Nat kind true}
    {new later : List (Passage Nat)} (h : Collapses first (alone kind x) (alone kind y) new)
    (k : Collapses (first + new.length) more more' later) :
    Collapses first (node x more) (node y more') (new ++ later) where
  lists_eq := by
    have hx := h.lists_eq
    have hmore := k.lists_eq
    rw [lists_node, lists_node x, List.length_append]
    omega
  progress hne hnil := by
    obtain ⟨hnew, hlater⟩ := List.append_eq_nil_iff.1 hnil
    rw [lists_node] at hne
    by_cases hzero : (alone kind x).lists = 0
    · exact k.progress (fun hmore => hne (by rw [hzero, hmore])) hlater
    · exact h.progress hzero hnew
  commands_le := by
    have hx := h.commands_le
    have hmore := k.commands_le
    rw [text_node, text_node x, List.count_append, List.count_append, List.length_append]
    omega
  holes_perm := by
    rw [holes_node, holes_node x, List.flatMap_append, List.length_append, ← List.range'_append_1]
    have hboth := h.holes_perm.append k.holes_perm
    refine (List.Perm.trans ?_ hboth).trans ?_
    · simp only [List.append_assoc]
      exact (List.perm_append_comm_assoc _ _ _).append_left _
    · simp only [List.append_assoc]
      exact (List.perm_append_comm_assoc _ _ _).append_left _
  earlier g hg n hn := by
    rw [holes_node]
    rcases List.mem_append.1 hg with hg | hg
    · exact List.mem_append_left _ (h.earlier g hg n hn)
    · exact List.mem_append_right _ (k.earlier g hg n hn)
  solid g hg := (List.mem_append.1 hg).elim (h.solid g) (k.solid g)
  shown_eq content hcontent hnew := by
    rw [holes_node] at hcontent
    have hx := h.shown_eq content (fun n hn => hcontent n (List.mem_append_left _ hn)) fun i g hg =>
      hnew i g (List.getElem?_append_left (List.getElem?_eq_some_iff.1 hg).1 ▸ hg)
    have hmore := k.shown_eq content (fun n hn => hcontent n (List.mem_append_right _ hn))
      fun i g hg => by
        rw [Nat.add_assoc]
        refine hnew _ g ?_
        rw [List.getElem?_append_right (Nat.le_add_right _ _), Nat.add_sub_cancel_left, hg]
    rw [shown_node, shown_node x, hx, hmore]

/-- An innermost list becomes a hole. -/
theorem exists_collapses_innermost (kind : ListKind) (body : ListBody Nat inner false)
    (hlists : body.lists = 0) (cs : List (Passage Nat)) : ∃ g,
      (formatKind inner (body.text blockHole)).run (blocksDraft cs) =
        (apart (blockHole cs.length), blocksDraft (cs ++ [g])) ∧
      Collapses cs.length (alone kind (.inl body)) (alone kind (.inr cs.length : Node inner)) [g] := by
  obtain ⟨lead, hlead, hhtml⟩ := body.exists_listHtml_eq not_mem_blockHole hlists
  obtain ⟨g, hmentions, hsolid, hshown⟩ := body.exists_html_passage
  have hblank : lead.trim = [] := by
    have htrim := trim_blanks (s := []) (t := []) hlead (by simp)
    rwa [List.append_nil, List.append_nil] at htrim
  refine ⟨g, ?_, ?_⟩
  · rw [formatKind, hhtml]
    simp only [paragraphBlock, hblank, hshown blockHole fun n _ => solid_blockHole n]
    rw [pure_bind, Drafting.run_bind, addBlock_run]
    rfl
  · have hlist : (alone kind (.inl body)).holes = body.holes := by simp [alone, node, holes]
    constructor
    · simp [alone, node, lists, hlists]
    · simp
    · have hhole : (apart (blockHole cs.length)).count '\\' = 0 :=
        List.count_eq_zero.2 (not_mem_apart (by decide) (not_mem_blockHole _))
      simp [alone, node, text, count_tagged, hhole]
    · have hswap : ([cs.length] ++ body.holes).Perm (body.holes ++ [cs.length]) := List.perm_append_comm
      simpa [hlist, alone, node, holes, hmentions] using hswap
    · intro g' hg' n hn
      obtain rfl := List.mem_singleton.1 hg'
      rwa [hlist, ← hmentions]
    · intro g' hg' content
      obtain rfl := List.mem_singleton.1 hg'
      exact hsolid content
    · intro content hcontent hnew
      rw [hlist] at hcontent
      have hhole : content cs.length = body.html content := by
        rw [hshown content hcontent]
        exact hnew 0 g rfl
      simp [alone, node, shown, hhole, html]

/-- Of a list with lists in it, the tags are left. -/
theorem Collapses.outer {first : Nat} {body body' : ListBody Nat inner false}
    {new : List (Passage Nat)} (h : Collapses first body body' new) (hlists : body.lists ≠ 0)
    (kind : ListKind) : Collapses first (alone kind (.inl body)) (alone kind (.inl body')) new where
  lists_eq := by
    have hsame := h.lists_eq
    simp only [alone, node, Sum.elim_inl, lists]
    omega
  progress _ := h.progress hlists
  commands_le := by
    have hless := h.commands_le
    simp only [alone, node, Sum.elim_inl, text, List.append_nil, count_tagged]
    omega
  holes_perm := by simpa [alone, node, holes] using h.holes_perm
  earlier g hg n hn := by simpa [alone, node, holes] using h.earlier g hg n hn
  solid := h.solid
  shown_eq content hcontent hnew := by
    have hsame := h.shown_eq content
      (fun n hn => hcontent n (by simpa [alone, node, holes] using hn)) hnew
    simp [alone, node, shown, hsame]

/-- What a pass leaves of a list. -/
theorem exists_collapses_list (kind : ListKind) {body : ListBody Nat inner false}
    (h : ∀ cs, ∃ body' new, body.collapse.run (blocksDraft cs) =
        (body'.text blockHole, blocksDraft (cs ++ new)) ∧ Collapses cs.length body body' new)
    (cs : List (Passage Nat)) : ∃ (x : Node inner) (new : List (Passage Nat)),
      (collapseWith body.collapse inner body).run (blocksDraft cs) =
        ((alone kind x).text blockHole, blocksDraft (cs ++ new)) ∧
      Collapses cs.length (alone kind (.inl body)) (alone kind x) new := by
  rw [collapseWith]
  split
  · rename_i hlists
    obtain ⟨g, hrun, hg⟩ := exists_collapses_innermost kind body hlists cs
    refine ⟨.inr cs.length, [g], ?_, hg⟩
    simpa [alone, node, text] using hrun
  · rename_i hlists
    obtain ⟨body', new, hrun, hbody⟩ := h cs
    refine ⟨.inl body', new, ?_, hbody.outer hlists kind⟩
    have hlist : (alone kind (.inl body')).text blockHole = inner.tagged (body'.text blockHole) := by
      simp [alone, node, text]
    rw [StateT.run_map, hrun, hlist]
    rfl

/-- What a pass leaves of a tree with something in front of it. -/
theorem exists_collapses_behind {outer : ListKind} {inItem' : Bool}
    {f : ListBody Nat kind inItem → ListBody Nat outer inItem'} {x : Text} {l : List Nat}
    {more : ListBody Nat kind inItem} (hrun : (f more).collapse = (x ++ ·) <$> more.collapse)
    (hlists : ∀ t, (f t).lists = t.lists) (htext : ∀ t, (f t).text blockHole = x ++ t.text blockHole)
    (hholes : ∀ t, (f t).holes = l ++ t.holes)
    (hshown : ∀ content t t', t.shown content = t'.shown content →
      (f t).shown content = (f t').shown content)
    (h : ∃ more' new, more.collapse.run (blocksDraft cs) =
        (more'.text blockHole, blocksDraft (cs ++ new)) ∧ Collapses cs.length more more' new) :
    ∃ body' new, (f more).collapse.run (blocksDraft cs) =
        (body'.text blockHole, blocksDraft (cs ++ new)) ∧ Collapses cs.length (f more) body' new := by
  obtain ⟨more', new, hmore, hcollapses⟩ := h
  refine ⟨f more', new, ?_, hcollapses.behind hlists htext hholes hshown⟩
  rw [hrun, StateT.run_map, hmore, htext]
  rfl

/-- What a pass leaves of a tree, by induction on the tree. -/
theorem exists_collapses (body : ListBody Nat kind inItem) (cs : List (Passage Nat)) :
    ∃ (body' : ListBody Nat kind inItem) (new : List (Passage Nat)),
      body.collapse.run (blocksDraft cs) = (body'.text blockHole, blocksDraft (cs ++ new)) ∧
      Collapses cs.length body body' new := by
  induction body generalizing cs with
  | nil => exact ⟨nil, [], by rw [collapse, text, List.append_nil]; rfl, .refl _ _ rfl⟩
  | blank c hc more ih =>
    exact exists_collapses_behind (f := blank c hc) (x := [c]) (l := []) rfl (fun _ => rfl)
      (fun _ => rfl) (fun _ => rfl) (fun _ _ _ heq => by rw [shown, shown, heq]) (ih cs)
  | char c hc more ih =>
    exact exists_collapses_behind (f := char c hc) (x := [c]) (l := []) rfl (fun _ => rfl)
      (fun _ => rfl) (fun _ => rfl) (fun _ _ _ heq => by rw [shown, shown, heq]) (ih cs)
  | item mark more ih =>
    exact exists_collapses_behind (f := item mark) (x := mark.text) (l := []) rfl (fun _ => rfl)
      (fun _ => rfl) (fun _ => rfl) (fun _ _ _ heq => by rw [shown, shown, heq]) (ih cs)
  | hole n more ih =>
    exact exists_collapses_behind (f := hole n) (x := apart (blockHole n)) (l := [n]) rfl
      (fun _ => rfl) (fun _ => rfl) (fun _ => rfl) (fun _ _ _ heq => by rw [shown, shown, heq]) (ih cs)
  | @list kind inner body more ihbody ihmore =>
    obtain ⟨x, new, hx, hcollapses⟩ := exists_collapses_list kind ihbody cs
    obtain ⟨more', later, hrun, hmore⟩ := ihmore (cs ++ new)
    rw [List.length_append] at hmore
    refine ⟨node x more', new ++ later, ?_, hcollapses.append hmore⟩
    rw [collapse, Drafting.run_bind, hx, Drafting.run_bind, hrun, text_node, List.append_assoc]
    rfl

end ListBody

end LatexPreview
