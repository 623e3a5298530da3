import Mathlib
import LatexPreview.Proofs.Convert.PlainText
import LatexPreview.Proofs.Convert.Untouched
import LatexPreview.Proofs.Lists.Collapse
import LatexPreview.Proofs.Text.Words

/-!
# Trees of lists are converted as a whole

Pass by pass, the lists of a tree are taken out and replaced by tokens, until a single token is left.
Putting contents back then gives the elements of the tree.

* `ListBody.Told`: what is left of a tree tells what the tree is shown as
* `Told.step`: each pass keeps this
* `convert_list`: a tree of lists is converted into its elements
-/

namespace LatexPreview

open Pattern Text Passage

/-! ## Expansions behind new passages -/

variable {cs new : List (Passage Nat)}

theorem behind_append_left {n : Nat} (hn : n < cs.length) : behind (cs ++ new) n = behind cs n := by
  rw [behind, behind, List.getElem?_append_left hn]

theorem behind_append_right (i : Nat) : behind (cs ++ new) (cs.length + i) = behind new i := by
  rw [behind, behind, List.getElem?_append_right (Nat.le_add_right _ _), Nat.add_sub_cancel_left]

/-- New passages behind the others do not matter to their expansions. -/
theorem expansion_append {n : Nat} (hn : n < cs.length) : expansion (cs ++ new) n = expansion cs n := by
  induction n using Nat.strong_induction_on with
  | _ n ih =>
    rw [expansion, expansion, behind_append_left hn]
    refine List.flatMap_congr fun x _ => ?_
    cases x with
    | char c => rfl
    | mention m =>
      by_cases hm : m < n
      · simp only [hm, dite_true]
        exact ih m hm (hm.trans hn)
      · simp only [hm, dite_false]

namespace ListBody

variable {kind inner : ListKind} {inItem : Bool}

/-! ## Passes -/

theorem shown_congr {α : Type} {content content' : α → Text} (body : ListBody α kind inItem)
    (h : ∀ a ∈ body.holes, content a = content' a) : body.shown content = body.shown content' := by
  induction body with
  | nil => rfl
  | blank c hc more ih | char c hc more ih | item mark more ih => rw [shown, shown, ih h]
  | hole a more ih =>
    rw [shown, shown, h a List.mem_cons_self, ih fun b hb => h b (List.mem_cons_of_mem _ hb)]
  | list inner body more ihbody ihmore =>
    rw [shown, shown, ihbody fun a ha => h a (List.mem_append_left _ ha),
      ihmore fun a ha => h a (List.mem_append_right _ ha)]

/-- The passages that have been stored, together with what is left of a tree, tell what the tree is
shown as. -/
structure Told (kind : ListKind) (cs : List (Passage Nat)) (x : Node inner) (html : Text) : Prop where
  earlier : ∀ n, ∀ m ∈ mentionedBy cs n, m < n
  once : ((alone kind x).holes ++ cs.flatMap mentions).Perm (List.range cs.length)
  solid : ∀ n < cs.length, Solid (expansion cs n)
  shown : ((alone kind x).shown (expansion cs)).1 = apart html

theorem Told.mem_holes {x : Node inner} {html : Text} (h : Told kind cs x html) {n : Nat}
    (hn : n ∈ (alone kind x).holes) : n < cs.length :=
  List.mem_range.1 (h.once.mem_iff.1 (List.mem_append_left _ hn))

section Step

variable {x y : Node inner} {html : Text} (h : Told kind cs x html)
  (hpass : Collapses cs.length (alone kind x) (alone kind y) new)

include h hpass

/-- The passages of a pass mention earlier ones. -/
theorem Told.earlier_append (n : Nat) : ∀ m ∈ mentionedBy (cs ++ new) n, m < n := by
  intro m hm
  rcases Nat.lt_or_ge n cs.length with hn | hn
  · rw [mentionedBy, behind_append_left hn] at hm
    exact h.earlier n m hm
  · obtain ⟨i, rfl⟩ := Nat.exists_eq_add_of_le hn
    rw [mentionedBy, behind_append_right, behind] at hm
    cases hg : new[i]? with
    | none => simp [hg] at hm
    | some g =>
      rw [hg, Option.getD_some] at hm
      exact (h.mem_holes (hpass.earlier g (List.mem_of_getElem? hg) m hm)).trans_le hn

/-- Each passage is still in one place. -/
theorem Told.once_append : ((alone kind y).holes ++ (cs ++ new).flatMap mentions).Perm
    (List.range (cs ++ new).length) := by
  have hrange : List.range (cs ++ new).length =
      List.range cs.length ++ List.range' cs.length new.length := by
    rw [List.range_eq_range', List.range_eq_range', List.length_append, ← List.range'_append_1,
      Nat.zero_add]
  have hafter : ((alone kind y).holes ++ (cs ++ new).flatMap mentions).Perm
      ((alone kind y).holes ++ new.flatMap mentions ++ cs.flatMap mentions) := by
    rw [List.flatMap_append, List.append_assoc]
    exact List.perm_append_comm.append_left _
  have hbefore : ((alone kind x).holes ++ List.range' cs.length new.length ++
      cs.flatMap mentions).Perm
      ((alone kind x).holes ++ cs.flatMap mentions ++ List.range' cs.length new.length) := by
    rw [List.append_assoc, List.append_assoc]
    exact List.perm_append_comm.append_left _
  rw [hrange]
  exact ((hafter.trans (hpass.holes_perm.append_right _)).trans hbefore).trans
    (h.once.append_right _)

/-- What is left of a tree tells the same after a pass. -/
theorem Told.step : Told kind (cs ++ new) y html := by
  have hnew : ∀ i g, new[i]? = some g →
      expansion (cs ++ new) (cs.length + i) = fill (expansion (cs ++ new)) g := by
    intro i g hg
    rw [expansion_eq (h.earlier_append hpass), behind_append_right, behind, hg]
    rfl
  refine ⟨h.earlier_append hpass, h.once_append hpass, fun n hn => ?_, ?_⟩
  · rcases Nat.lt_or_ge n cs.length with hlt | hge
    · rw [expansion_append hlt]
      exact h.solid n hlt
    · obtain ⟨i, rfl⟩ := Nat.exists_eq_add_of_le hge
      have hi : i < new.length := by
        rw [List.length_append] at hn
        omega
      rw [hnew i _ (List.getElem?_eq_getElem hi)]
      exact hpass.solid _ (List.getElem_mem hi) _
  · have hsolid : ∀ n ∈ (alone kind x).holes, Solid (expansion (cs ++ new) n) := fun n hn => by
      rw [expansion_append (h.mem_holes hn)]
      exact h.solid n (h.mem_holes hn)
    rw [hpass.shown_eq _ hsolid hnew, ← h.shown]
    exact congrArg Prod.fst (shown_congr _ fun n hn => expansion_append (h.mem_holes hn))

end Step

/-- A pass takes lists out of a tree, as long as there are some, and the source changes. -/
theorem Told.exists_pass {x : Node inner} {html : Text} (h : Told kind cs x html)
    (hlists : (alone kind x).lists ≠ 0) : ∃ (y : Node inner) (new : List (Passage Nat)),
      (innermostList.replaceM formatList ((alone kind x).text blockHole)).run (blocksDraft cs) =
        ((alone kind y).text blockHole, blocksDraft (cs ++ new)) ∧
      Told kind (cs ++ new) y html ∧
      (alone kind y).text blockHole ≠ (alone kind x).text blockHole ∧
      (alone kind y).lists < (alone kind x).lists := by
  cases x with
  | inr n => exact absurd rfl hlists
  | inl body =>
    obtain ⟨y, new, hrun, hpass⟩ :=
      exists_collapses_list kind (fun cs => exists_collapses body cs) cs
    have hrewrites : innermostList.Rewrites formatList ((alone kind (.inl body)).text blockHole) []
        (collapseWith body.collapse inner body) := by
      have hlist := rewrites_collapseWith body (rewrites_collapse body) []
      rwa [← List.append_nil (inner.tagged _)] at hlist
    have hpos := List.length_pos_iff.2 (hpass.progress hlists)
    refine ⟨y, new, ?_, h.step hpass, fun heq => ?_, ?_⟩
    · rw [hrewrites.replaceM_eq opens_innermostList.consumes, hrun]
    · have hless := hpass.commands_le
      rw [heq] at hless
      omega
    · have hsame := hpass.lists_eq
      omega

/-! ## The number of passes -/

theorem countFrom_text (body : ListBody Nat kind inItem) (b : Option Char) (s : Text) :
    listOpening.countFrom b (body.text blockHole ++ s) =
      body.lists + listOpening.countFrom ((body.text blockHole).getLast?.or b) s := by
  have happend : ∀ {x y : Text} {m n : Nat},
      (∀ b s, listOpening.countFrom b (x ++ s) = m + listOpening.countFrom (x.getLast?.or b) s) →
      (∀ b s, listOpening.countFrom b (y ++ s) = n + listOpening.countFrom (y.getLast?.or b) s) →
      ∀ b s, listOpening.countFrom b (x ++ y ++ s) =
        m + n + listOpening.countFrom ((x ++ y).getLast?.or b) s := by
    intro x y m n hx hy b s
    rw [List.append_assoc, hx, hy, getLast?_append_or, Nat.add_assoc]
  have hplain : ∀ {x : Text}, Listless x → ∀ b s,
      listOpening.countFrom b (x ++ s) = 0 + listOpening.countFrom (x.getLast?.or b) s := by
    intro x hx b s
    rw [countFrom_plain hx, Nat.zero_add]
  induction body generalizing b s with
  | nil => simp [text, lists]
  | blank c hc more ih =>
    exact (happend (hplain (listless_blank hc)) ih b s).trans (by simp [text, lists])
  | char c hc more ih =>
    exact (happend (hplain (listless_char hc)) ih b s).trans (by simp [text, lists])
  | item mark more ih =>
    exact (happend (hplain (listless_mark mark)) ih b s).trans (by simp [text, lists])
  | hole n more ih =>
    exact (happend (hplain (listless_hole n)) ih b s).trans (by simp [text, lists])
  | list inner body more ihbody ihmore =>
    rw [text, happend (countFrom_tagged ihbody inner) ihmore, lists, Nat.add_right_comm body.lists]

end ListBody

/-! ## The last stages -/

theorem at?_blockHole (n : Nat) (b : Option Char) (s : Text) : ∃ stop,
    (placeholderPattern Draft.blockName).at? b (blockHole n ++ s) = some stop ∧ stop.rest = s := by
  obtain ⟨stop, hstop⟩ := Option.isSome_iff_exists.1 (at?_placeholder Draft.blockName n b s)
  refine ⟨stop, hstop, ?_⟩
  obtain ⟨ds, -, hds, hrest⟩ := matches_placeholder (matches_of_at? hstop)
  have hdigits : '_' ∉ Text.ofNat n := fun hmem =>
    absurd (isDigit_of_mem_ofNat hmem) (by decide)
  have hsame : Text.ofNat n ++ '_' :: ('_' :: s) = ds ++ '_' :: ('_' :: stop.rest) := by
    simpa [blockHole, placeholder] using hrest
  exact (List.cons.inj (eq_of_append_cons_eq hdigits hds hsame).2).2.symm

/-- Blank lines and the tokens of blocks, at which a text is divided into paragraphs. -/
def partEnd : Pattern := alt (placeholderPattern Draft.blockName) blankLine

theorem opens_token : (placeholderPattern Draft.blockName).Opens '_' :=
  ((opens_lit '_' ('_' :: (Draft.blockName ++ ['_']))).append _).append _

theorem at?_partEnd (b : Option Char) (s : Text) :
    partEnd.at? b s = ((placeholderPattern Draft.blockName).at? b s).or (blankLine.at? b s) :=
  run_alt _ _

/-- A single token between blank lines is divided from them. -/
theorem cut_apart (n : Nat) : ∃ first stop last, partEnd.cut (apart (blockHole n)) =
    ⟨[⟨[], "\n\n".toList, first⟩, ⟨[], blockHole n, stop⟩, ⟨[], "\n\n".toList, last⟩], []⟩ := by
  have hconsumes : partEnd.Consumes := opens_token.consumes.alt opens_blankLine.consumes
  have hblank : ∀ b s, behindBreak? s = none → ∃ stop, partEnd.at? b ("\n\n".toList ++ s) = some stop ∧
      stop.rest = s := by
    intro b s hs
    have hnone : (placeholderPattern Draft.blockName).at? b ("\n\n".toList ++ s) = none :=
      (opens_token.skips (x := ['\n']) (by decide) ('\n' :: s)).1
    have hline : behindBreak? ('\n' :: s) = some s := by
      have hbreak := behindBreak?_line (l := []) (by simp) s
      rw [hs] at hbreak
      exact hbreak
    rw [at?_partEnd, hnone, Option.none_or]
    exact Option.map_eq_some_iff.1 ((at?_blankLine b ('\n' :: s)).trans hline)
  have hlow : behindBreak? (blockHole n ++ ("\n\n".toList ++ [])) = none := by
    have hfirst : ∃ r, blockHole n = '_' :: r := ⟨_, rfl⟩
    obtain ⟨r, hr⟩ := hfirst
    rw [hr, List.cons_append, behindBreak?]
    rfl
  have hne : blockHole n ≠ [] := (solid_blockHole n).1
  obtain ⟨first, hfirst, hfirstRest⟩ := hblank none _ hlow
  obtain ⟨stop, hstop, hstopRest⟩ := at?_blockHole n (some '\n') ("\n\n".toList ++ [])
  obtain ⟨last, hlast, hlastRest⟩ := hblank ((blockHole n).getLast?.or (some '\n')) [] rfl
  have hstop' : partEnd.at? (some '\n') (blockHole n ++ ("\n\n".toList ++ [])) = some stop := by
    rw [at?_partEnd, hstop, Option.some_or]
  have htext : apart (blockHole n) = "\n\n".toList ++ (blockHole n ++ ("\n\n".toList ++ [])) := by
    simp [apart]
  refine ⟨first, stop, last, ?_⟩
  have hline : ("\n\n".toList).getLast?.or none = some '\n' := rfl
  rw [show partEnd.cut = partEnd.cutFrom none from rfl, htext,
    cutFrom_hit hconsumes (by simp) hfirst hfirstRest, hline,
    cutFrom_hit hconsumes hne hstop' hstopRest, cutFrom_hit hconsumes (by simp) hlast hlastRest,
    cutFrom, cutAtMost_nil hconsumes]

/-- A single token between blank lines is passed on. -/
theorem formatParagraphs_apart {blocks : PlaceholderTable} (hname : blocks.name = Draft.blockName)
    (n : Nat) : formatParagraphs blocks (apart (blockHole n)) = blockHole n := by
  obtain ⟨first, stop, last, hcut⟩ := cut_apart n
  have htrim : (blockHole n).trim = blockHole n := by
    simpa using (solid_blockHole n).2.trim_eq (l := []) (t := []) (by simp) (by simp)
  have hparts : paragraphParts blocks (apart (blockHole n)) = [blockHole n] := by
    have hempty : (blockHole n).isEmpty = false := by simp [(solid_blockHole n).1]
    have hblank : Text.trim "\n\n".toList = [] := by decide
    have hnil : Text.trim [] = [] := rfl
    rw [paragraphParts, hname, ← partEnd, hcut]
    simp only [List.flatMap_cons, List.flatMap_nil, List.cons_append, List.nil_append, List.map_cons,
      List.map_nil, htrim, hblank, hnil, List.filter_cons, hempty, List.isEmpty_nil]
    rfl
  have htoken : blocks.isToken (blockHole n) = true := by
    obtain ⟨stop, hstop, hrest⟩ := at?_blockHole n none []
    rw [List.append_nil] at hstop
    rw [PlaceholderTable.isToken, hname]
    exact run_complete (steady_placeholder _) (matches_of_at? hstop) (by simp [hrest])
  rw [formatParagraphs, hparts]
  simp [htoken]

/-! ## Whole trees -/

namespace ListBody

variable {kind : ListKind} {inItem : Bool}

/-- The tree with other holes. -/
def map {α β : Type} (f : α → β) {kind : ListKind} {inItem : Bool} :
    ListBody α kind inItem → ListBody β kind inItem
  | nil => nil
  | blank c hc more => blank c hc (more.map f)
  | item mark more => item mark (more.map f)
  | char c hc more => char c hc (more.map f)
  | hole a more => hole (f a) (more.map f)
  | list inner body more => list inner (body.map f) (more.map f)

theorem text_map {α β : Type} (f : α → β) (content : β → Text) (body : ListBody α kind inItem) :
    (body.map f).text content = body.text (content ∘ f) := by
  induction body with
  | nil => rfl
  | blank c hc more ih | char c hc more ih | item mark more ih | hole a more ih =>
    simp [map, text, ih]
  | list inner body more ihbody ihmore => simp [map, text, ihbody, ihmore]

theorem shown_map {α β : Type} (f : α → β) (content : β → Text) (body : ListBody α kind inItem) :
    (body.map f).shown content = body.shown (content ∘ f) := by
  induction body with
  | nil => rfl
  | blank c hc more ih | char c hc more ih | item mark more ih | hole a more ih =>
    simp [map, shown, ih]
  | list inner body more ihbody ihmore => simp [map, shown, ihbody, ihmore]

theorem holes_map {α β : Type} (f : α → β) (body : ListBody α kind inItem) :
    (body.map f).holes = body.holes.map f := by
  induction body with
  | nil => rfl
  | blank c hc more ih | char c hc more ih | item mark more ih | hole a more ih =>
    simp [map, holes, ih]
  | list inner body more ihbody ihmore => simp [map, holes, ihbody, ihmore]

/-- The source of a tree without holes, as it is given to the first pass. -/
theorem latex_eq (body : ListBody Empty kind false) :
    (alone kind (.inl (body.map Empty.elim))).text blockHole = body.latex Empty.elim := by
  have hcontent : blockHole ∘ Empty.elim = Empty.elim := funext fun a => a.elim
  simp [alone, node, text, latex, text_map, hcontent]

/-- At first, nothing has been stored. -/
theorem told_nil (body : ListBody Empty kind false) :
    Told kind [] (.inl (body.map Empty.elim)) (body.html Empty.elim) where
  earlier n m hm := by simp [mentionedBy, behind] at hm
  once := by
    have hnone : ∀ l : List Empty, l.map (Empty.elim : Empty → Nat) = [] := by
      rintro (- | ⟨a, l⟩)
      · rfl
      · exact a.elim
    simp [alone, node, ListBody.holes, holes_map, hnone]
  solid n hn := absurd hn (Nat.not_lt_zero n)
  shown := by
    have hcontent : expansion [] ∘ Empty.elim = Empty.elim := funext fun a => a.elim
    simp [alone, node, ListBody.shown, shown_map, hcontent, html]

/-- All passes together leave a single hole. -/
theorem exists_formatLists (body : ListBody Empty kind false) : ∃ n cs,
    (formatLists (body.latex Empty.elim)).run .fresh = (apart (blockHole n), blocksDraft cs) ∧
      Told kind cs (.inr n : Node kind) (body.html Empty.elim) := by
  have hdone : ∀ (x : Node kind) (d : Draft), (alone kind x).lists = 0 →
      (innermostList.replaceM formatList ((alone kind x).text blockHole)).run d =
        ((alone kind x).text blockHole, d) := by
    intro x d hlists
    rw [(rewrites_plain ((alone kind x).listless_text hlists) []).replaceM_eq
      opens_innermostList.consumes]
    rfl
  have hpass : ∀ (x : Node kind) (d : Draft),
      (∃ cs, d = blocksDraft cs ∧ Told kind cs x (body.html Empty.elim)) → (alone kind x).lists ≠ 0 →
      ∃ (y : Node kind) (e : Draft),
        (innermostList.replaceM formatList ((alone kind x).text blockHole)).run d =
          ((alone kind y).text blockHole, e) ∧
        (∃ cs, e = blocksDraft cs ∧ Told kind cs y (body.html Empty.elim)) ∧
        (alone kind y).text blockHole ≠ (alone kind x).text blockHole ∧
        (alone kind y).lists < (alone kind x).lists := by
    rintro x _ ⟨cs, rfl, htold⟩ hlists
    obtain ⟨y, new, hrun, htold', hchange, hless⟩ := htold.exists_pass hlists
    exact ⟨y, _, hrun, ⟨_, rfl, htold'⟩, hchange, hless⟩
  have hfuel : (alone kind (.inl (body.map Empty.elim))).lists ≤
      listOpening.count ((alone kind (.inl (body.map Empty.elim))).text blockHole) := by
    have hcount := (alone kind (.inl (body.map Empty.elim))).countFrom_text none []
    rw [List.append_nil] at hcount
    rw [count_eq, hcount]
    exact Nat.le_add_right _ _
  obtain ⟨x, d, hrun, ⟨cs, rfl, htold⟩, hlists⟩ :=
    formatListsFrom_run hdone hpass ⟨[], rfl, body.told_nil⟩ hfuel
  rw [latex_eq] at hrun
  cases x with
  | inl body' => exact absurd hlists (by simp [alone, node, ListBody.lists])
  | inr n =>
    refine ⟨n, cs, hrun.trans ?_, htold⟩
    simp [alone, node, text]

theorem apart_injective {s t : Text} (h : apart s = apart t) : s = t := by
  simpa [apart] using h

/-- The stage for lists is given the source of a tree as it is. -/
theorem stageInput_latex (body : ListBody Empty kind false) :
    stageInput .lists (body.latex Empty.elim) = (body.latex Empty.elim, .fresh) := by
  have htext : body.latex Empty.elim =
      (list kind body (nil : ListBody Empty kind true)).text Empty.elim := by
    simp [latex, text]
  have hcommands : Commands (listNames true) (body.latex Empty.elim) [] := by
    rw [htext]
    exact commands_text (fun a => a.elim) _ (.inl rfl) []
  have hdollar : '$' ∉ body.latex Empty.elim := by
    rw [htext]
    exact dollar_not_mem_text (fun a => a.elim) _
  have hbrace : body.latex Empty.elim = '\\' ::
      ("begin".toList ++ braced kind.name.toList ++ body.text Empty.elim ++ "\\end".toList ++
        '{' :: kind.name.toList) ++ ['}'] := by
    simp [latex, ListKind.tagged, beginTag, endTag, braced]
  have hlast : (body.latex Empty.elim).getLast? = some '}' := by
    rw [hbrace, List.getLast?_concat]
  have hfirm : Firm (body.latex Empty.elim) := by
    refine ⟨fun c hc => ?_, fun c hc => ?_⟩
    · rw [hbrace] at hc
      obtain rfl : '\\' = c := by simpa using hc
      decide
    · obtain rfl : '}' = c := by simpa [hlast] using hc
      decide
  have htrim : (body.latex Empty.elim).trim = body.latex Empty.elim := by
    simpa using hfirm.trim_eq (l := []) (t := []) (by simp) (by simp)
  have huntouched : Untouched .lists (body.latex Empty.elim) :=
    untouched_of_commands (by decide) hcommands (by simp [hlast]) hdollar htrim
  exact huntouched.stageInput_eq (by decide)

end ListBody

/-! ## The name of blocks in elements -/

section Name

variable {tag style : String} {s t : Text}

/-- The tags of the elements for lists and their items, with their styles. -/
def listElements : List (String × String) :=
  [("ul", Style.bulletList), ("ol", Style.numberedList), ("dl", Style.termList),
    ("li", Style.listItem), ("dt", Style.term), ("dd", Style.termText)]

theorem not_mem_listElements : ∀ e ∈ listElements, 'B' ∉ Html.styled e.1 e.2 [] := by
  decide +kernel

/-- The name of blocks does not reach over the ends of tags, nor over blank lines. -/
theorem not_infix_around {x y z : Text} (hy : y ∈ [['<'], ['>'], ['\n', '\n']])
    (hx : ¬ Draft.blockName <:+: x) (hz : ¬ Draft.blockName <:+: z) :
    ¬ Draft.blockName <:+: x ++ (y ++ z) := by
  have hname : Draft.blockName = ['B', 'L', 'K'] := by decide
  have hends : y ≠ [] ∧ ∀ c ∈ Draft.blockName, c ∉ y := by
    rw [hname]
    simp only [List.mem_cons, List.not_mem_nil, or_false] at hy
    rcases hy with rfl | rfl | rfl <;> simp
  rw [infix_around (by decide) hends.1 hends.2]
  exact not_or.2 ⟨hx, hz⟩

theorem not_infix_of_not_mem (h : 'B' ∉ s) : ¬ Draft.blockName <:+: s := fun hi =>
  h (hi.subset (List.mem_cons_self : 'B' ∈ Draft.blockName))

theorem not_infix_styled_append (he : (tag, style) ∈ listElements) (hs : ¬ Draft.blockName <:+: s)
    (ht : ¬ Draft.blockName <:+: t) : ¬ Draft.blockName <:+: Html.styled tag style s ++ t := by
  have hplain := not_mem_listElements _ he
  have hopen : 'B' ∉ tag.toList ++ Html.attr "style" style.toList := fun hmem => hplain <| by
    simp only [Html.styled, Html.element, List.flatMap_singleton]
    simp only [List.mem_append, List.mem_cons] at hmem ⊢
    tauto
  have hclose : 'B' ∉ '/' :: tag.toList := by
    simp only [List.mem_append, not_or] at hopen
    simp [hopen.1]
  have helement : Html.styled tag style s ++ t =
      [] ++ (['<'] ++ ((tag.toList ++ Html.attr "style" style.toList) ++
        (['>'] ++ (s ++ (['<'] ++ (('/' :: tag.toList) ++ (['>'] ++ t))))))) := by
    simp [Html.styled, Html.element]
  rw [helement]
  refine not_infix_around (by simp) (by decide) ?_
  refine not_infix_around (by simp) (not_infix_of_not_mem hopen) ?_
  refine not_infix_around (by simp) hs ?_
  exact not_infix_around (by simp) (not_infix_of_not_mem hclose) ht

theorem not_infix_styled (he : (tag, style) ∈ listElements) (hs : ¬ Draft.blockName <:+: s) :
    ¬ Draft.blockName <:+: Html.styled tag style s := by
  have happend := not_infix_styled_append he hs (t := []) (by decide)
  rwa [List.append_nil] at happend

theorem ListKind.not_infix_frame (kind : ListKind) (hs : ¬ Draft.blockName <:+: s) :
    ¬ Draft.blockName <:+: kind.frame s := by
  cases kind with
  | itemize => exact not_infix_styled (by simp [listElements]) hs
  | enumerate => exact not_infix_styled (by simp [listElements]) hs
  | description => exact not_infix_styled (by simp [listElements]) hs

theorem ItemMark.not_infix_html {kind : ListKind} (mark : ItemMark kind)
    (hmark : ¬ Draft.blockName <:+: mark.text) (hs : ¬ Draft.blockName <:+: s)
    (ht : ¬ Draft.blockName <:+: t) : ¬ Draft.blockName <:+: mark.html s ++ t := by
  have htrim : ¬ Draft.blockName <:+: s.trim := fun hi => hs (hi.trans (trim_isInfix s))
  have hitem : ¬ Draft.blockName <:+: Html.styled "li" Style.listItem s.trim ++ t :=
    not_infix_styled_append (by simp [listElements]) htrim ht
  cases mark with
  | bullet | number => exact hitem
  | term u hu =>
    have hterm : ¬ Draft.blockName <:+: u := fun hi => hmark <| hi.trans
      ⟨itemCommand ++ ['['], [']'], by simp [text]⟩
    rw [html, List.append_assoc]
    exact not_infix_styled_append (by simp [listElements]) hterm
      (not_infix_styled_append (by simp [listElements]) htrim ht)

/-- The name of blocks does not occur in what a tree is shown as, unless it occurs in its source. -/
theorem ListBody.not_infix_shown {content : Empty → Text} {kind : ListKind} {inItem : Bool}
    (body : ListBody Empty kind inItem) (x : Text)
    (h : ¬ Draft.blockName <:+: x ++ body.text content) :
    ¬ Draft.blockName <:+: x ++ (body.shown content).1 ∧
      ¬ Draft.blockName <:+: (body.shown content).2 := by
  have hpart : ∀ {u v w : Text}, ¬ Draft.blockName <:+: u ++ (v ++ w) →
      ¬ Draft.blockName <:+: u ∧ ¬ Draft.blockName <:+: v ∧ ¬ Draft.blockName <:+: w := by
    intro u v w hne
    refine ⟨fun hi => hne (hi.trans ⟨[], v ++ w, by simp⟩), fun hi => hne (hi.trans ⟨u, w, by simp⟩),
      fun hi => hne (hi.trans ⟨u ++ v, [], by simp⟩)⟩
  induction body generalizing x with
  | nil => exact ⟨h, fun hi => absurd (List.infix_nil.1 hi) (by decide)⟩
  | blank c hc more ih | char c hc more ih =>
    rw [text, ← List.singleton_append, ← List.append_assoc] at h
    rw [shown, ← List.singleton_append, ← List.append_assoc]
    exact ih _ h
  | item mark more ih =>
    obtain ⟨hx, hmark, hmore⟩ := hpart h
    obtain ⟨hfirst, hlater⟩ := ih [] hmore
    rw [shown, List.append_nil]
    exact ⟨hx, mark.not_infix_html hmark hfirst hlater⟩
  | hole a more => exact a.elim
  | list inner body more ihbody ihmore =>
    obtain ⟨hx, htagged, hmore⟩ := hpart h
    obtain ⟨-, hbody⟩ := ihbody [] (hpart (by simpa [ListKind.tagged] using htagged)).2.1
    obtain ⟨hfirst, hlater⟩ := ihmore [] hmore
    refine ⟨?_, hlater⟩
    rw [shown, apart, List.append_assoc, List.append_assoc]
    refine not_infix_around (by simp) hx ?_
    exact not_infix_around (by simp) (inner.not_infix_frame hbody) hfirst

end Name

/-! ## Trees of lists -/

/-- A tree of lists is converted into its elements: each item or description is trimmed, and the
lists in it stand in their place. -/
theorem convert_list {kind : ListKind} (body : ListBody Empty kind false)
    (h : ¬ Draft.blockName <:+: body.latex Empty.elim) :
    (convert (body.latex Empty.elim)).html = body.html Empty.elim := by
  obtain ⟨n, cs, hlists, htold⟩ := body.exists_formatLists
  have hinput : stageInput .paragraphs (body.latex Empty.elim) =
      (apart (blockHole n), blocksDraft cs) := by
    rw [stageInput_next .lists .paragraphs rfl, body.stageInput_latex]
    exact hlists
  have hexpansion : expansion cs n = body.html Empty.elim := by
    refine ListBody.apart_injective (Eq.trans ?_ htold.shown)
    simp [ListBody.alone, ListBody.node, ListBody.shown]
  have horderly : Orderly cs [.mention n] := ⟨htold.earlier, htold.once⟩
  have hexpand : expand cs [.mention n] = body.html Empty.elim := by
    rw [expand, fill_mention, fill_nil, List.append_nil, hexpansion]
  have hfree : ¬ tokenFront Draft.blockName <:+: expand cs [.mention n] := by
    have hbody : ¬ Draft.blockName <:+: [] ++ body.text Empty.elim := fun hi =>
      h (hi.trans ⟨beginTag kind.name.toList, endTag kind.name.toList, rfl⟩)
    have hname : Draft.blockName <:+: tokenFront Draft.blockName := by decide
    rw [hexpand]
    exact fun hi => kind.not_infix_frame (body.not_infix_shown [] hbody).2 (hname.trans hi)
  have hresolve := resolve_passage (by decide) horderly hfree
  rw [convert_of_stageInput hinput rfl rfl, formatParagraphs_apart rfl, ← hexpand, ← hresolve]
  simp [blockHole, blocksDraft, Passage.text]

/-- A numbered list in an item of another list. -/
def nestedList : ListBody Empty .itemize false :=
  .item .bullet (.char 'a' (by simp) (.char ' ' (by simp)
    (.list .enumerate (.item .number (.char 'b' (by simp) .nil))
      (.item .bullet (.char 'c' (by simp) .nil)))))

theorem convert_list_nested :
    (convert ("\\begin\x7bitemize\x7d\\item a \\begin\x7benumerate\x7d\\item b\\end\x7benumerate\x7d" ++
      "\\item c\\end\x7bitemize\x7d").toList).html =
      Html.styled "ul" Style.bulletList
        (Html.styled "li" Style.listItem ("a \n\n".toList ++
          Html.styled "ol" Style.numberedList (Html.styled "li" Style.listItem ['b'])) ++
        Html.styled "li" Style.listItem ['c']) := by
  have hlatex : nestedList.latex Empty.elim = ("\\begin\x7bitemize\x7d\\item a \\begin\x7benumerate\x7d" ++
      "\\item b\\end\x7benumerate\x7d\\item c\\end\x7bitemize\x7d").toList := by
    decide +kernel
  have hhtml : nestedList.html Empty.elim = Html.styled "ul" Style.bulletList
      (Html.styled "li" Style.listItem ("a \n\n".toList ++
        Html.styled "ol" Style.numberedList (Html.styled "li" Style.listItem ['b'])) ++
      Html.styled "li" Style.listItem ['c']) := by
    decide +kernel
  have hname : ¬ Draft.blockName <:+: nestedList.latex Empty.elim := by
    rw [hlatex]
    decide +kernel
  rw [← hhtml]
  exact (congrArg (fun s => (convert s).html) hlatex.symm).trans (convert_list nestedList hname)

end LatexPreview
