import Mathlib
import LatexPreview.Proofs.Convert.ListStage
import LatexPreview.Proofs.Convert.Shelves
import LatexPreview.Proofs.Lists.Tree
import LatexPreview.Proofs.Pattern.Environment
import LatexPreview.Proofs.Pattern.Rewriting

/-!
# Passes over nested lists

A pass of the stage for lists replaces the lists that hold no other one, and leaves the tags of the
others as they are.  So a pass over the source of a tree of any kind is known from its parts, and
the passes come to an end when there are no lists left.

* `formatKind` converts a list of some kind
* `rewrites_plain`, `rewrites_innermost`, `rewrites_outer`: a part without lists, a list without
  lists in it, and one with lists in it
* `formatListsFrom_run`: passes over trees, until no lists are left
* `countFrom_plain`, `countFrom_tagged`: the lists that the stage counts beforehand
-/

namespace LatexPreview

open Pattern Text

/-! ## The pattern -/

/-- The names of the environments for lists. -/
def ListKind.names : List Text := all.map (·.name.toList)

theorem ListKind.mem_names (kind : ListKind) : kind.name.toList ∈ names :=
  List.mem_map_of_mem kind.mem_all

theorem ListKind.alone (kind : ListKind) :
    ∀ n ∈ names, n = kind.name.toList ∨ Clash n (kind.name.toList ++ ['}']) := by
  cases kind <;> decide

theorem innermostList_eq :
    innermostList = environmentPattern ListKind.names (notAhead listOpening ++ any) := rfl

theorem leads_innermostList : innermostList.Leads ["\\begin".toList] :=
  ((((((((leads_command "begin").append _).append _).append _).append _).append _).append _).append
    _).append _

theorem leads_listOpening : listOpening.Leads ["\\begin".toList] :=
  (leads_opening "itemize").alt ((leads_opening "enumerate").alt (leads_opening "description"))

theorem run_listOpening (kind : ListKind) (s : Text) (b : Option Char)
    (slots : List (String × Text × Text)) (k : Accept) :
    listOpening.run ⟨b, beginTag kind.name.toList ++ s, slots⟩ k =
      k ⟨(beginTag kind.name.toList).getLast?.or b, s, slots⟩ := by
  have hpattern : listOpening = nameAmong (ListKind.names.map beginTag) := rfl
  have halone : ∀ w ∈ ListKind.names.map beginTag,
      w = beginTag kind.name.toList ∨ Clash w (beginTag kind.name.toList) := by
    cases kind <;> decide
  have hothers : ∀ w ∈ ListKind.names.map beginTag,
      w = beginTag kind.name.toList ∨ ¬ w <+: beginTag kind.name.toList ++ s := by
    refine fun w hw => (halone w hw).imp id fun hclash hp => (hclash.append [] s).1 ?_
    rwa [List.append_nil]
  rw [hpattern, run_nameAmong_of_mem (List.mem_map_of_mem kind.mem_names) hothers, run_lit]

theorem avoids_endTag (kind : ListKind) (s : Text) :
    Avoids "\\begin".toList (endTag kind.name.toList) s := by
  have hplain : '\\' ∉ "end".toList ++ braced kind.name.toList := by
    simp [braced, kind.not_mem_name]
  have hcommands : Commands ["end".toList ++ braced kind.name.toList] (endTag kind.name.toList) s :=
    commands_word List.mem_cons_self hplain
  exact hcommands.avoids (w := "begin".toList) (by decide) (by cases kind <;> decide)

/-! ## Parts of a source -/

/-- The source has no commands but those in front of items. -/
def Listless (x : Text) : Prop := ∀ s, Commands (listNames false) x s

variable {kind : ListKind} {x y s : Text}

theorem Listless.append (hx : Listless x) (hy : Listless y) : Listless (x ++ y) :=
  fun s => commands_append.2 ⟨hx _, hy s⟩

theorem Listless.of_not_mem (h : '\\' ∉ x) : Listless x := fun _ => commands_of_not_mem h

theorem Listless.avoids_begin (hx : Listless x) (s : Text) : Avoids "\\begin".toList x s :=
  (hx s).avoids (w := "begin".toList) (by decide) (by decide)

theorem Listless.avoids_end (hx : Listless x) (name s : Text) : Avoids (endTag name) x s :=
  ((hx s).avoids (w := "end".toList) (by decide) (by decide)).mono (braced name)

/-- The text in front of a list, and the list, are taken out as blocks. -/
def formatKind (kind : ListKind) (body : Text) : Drafting Text := do
  let lead ← paragraphBlock (listHtml kind body).1
  let list ← addBlock (listHtml kind body).2
  pure (lead ++ list)

theorem formatList_eq (h : Hit) :
    formatList h = formatKind (ListKind.ofName (h.get "env")) (h.get "body") := rfl

theorem formatList_of_stop {stop : Cursor} (hkind : stop.get? "env" = some kind.name.toList)
    (hbody : stop.get? "body" = some x) (gap matched : Text) :
    formatList ⟨gap, matched, stop⟩ = formatKind kind x := by
  have hname : ListKind.ofName kind.name.toList = kind := by cases kind <;> rfl
  rw [formatList_eq, Hit.get, Hit.get, hkind, hbody, Option.getD_some, Option.getD_some, hname]

/-- A part without lists is left as it is. -/
theorem rewrites_plain (hx : Listless x) (s : Text) :
    innermostList.Rewrites formatList x s (pure x) :=
  Skips.rewrites opens_innermostList.consumes (fun _ _ => rfl) fun _ =>
    leads_innermostList.skips fun _ hw => List.mem_singleton.1 hw ▸ hx.avoids_begin s

theorem rewrites_plain_append {act : Drafting Text} (hx : Listless x)
    (hy : innermostList.Rewrites formatList y s act) :
    innermostList.Rewrites formatList (x ++ y) s ((x ++ ·) <$> act) := by
  have happend := (rewrites_plain hx (y ++ s)).append hy
  simpa using happend

/-- A list without lists in it is taken out. -/
theorem rewrites_innermost (hx : Listless x) (kind : ListKind) (s : Text) :
    innermostList.Rewrites formatList (kind.tagged x) s (formatKind kind x) := by
  refine rewrites_hit opens_innermostList.consumes (by simp [ListKind.tagged, beginTag]) fun b => ?_
  have hwalks : (notAhead listOpening ++ any).Walks x (endTag kind.name.toList ++ s) :=
    walks_notAhead leads_listOpening fun _ hw => List.mem_singleton.1 hw ▸ hx.avoids_begin _
  obtain ⟨stop, hstop, hrest, henv, hbody⟩ :=
    environmentPattern_hit kind.mem_names kind.alone (hx.avoids_end _ _) hwalks b
  refine ⟨stop, ?_, hrest, formatList_of_stop henv hbody _ _⟩
  rw [innermostList_eq, ← hstop, ListKind.tagged, List.append_assoc, List.append_assoc]

/-- A list is opened in a source, and only items are marked in front of it. -/
def OpensList (x : Text) : Prop :=
  ∃ front, ∃ kind : ListKind, ∃ rest, Listless front ∧ x = front ++ (beginTag kind.name.toList ++ rest)

theorem OpensList.append (hx : OpensList x) (y : Text) : OpensList (x ++ y) := by
  obtain ⟨front, inner, rest, hfront, rfl⟩ := hx
  exact ⟨front, inner, rest ++ y, hfront, by simp⟩

theorem OpensList.prepend (hx : Listless x) (hy : OpensList y) : OpensList (x ++ y) := by
  obtain ⟨front, inner, rest, hfront, rfl⟩ := hy
  exact ⟨x ++ front, inner, rest, hx.append hfront, by simp⟩

theorem opensList_tagged (kind : ListKind) (x : Text) : OpensList (kind.tagged x) :=
  ⟨[], kind, x ++ endTag kind.name.toList, .of_not_mem (by simp), by simp [ListKind.tagged]⟩

theorem skips_endTag (kind : ListKind) (b : Option Char) (s : Text) :
    innermostList.Skips b (endTag kind.name.toList) s :=
  leads_innermostList.skips fun _ hw => List.mem_singleton.1 hw ▸ avoids_endTag kind s

/-- The tag of a list is gone over, if another list is opened before it is closed. -/
theorem OpensList.skips_beginTag (hx : OpensList x) (kind : ListKind) (b : Option Char) (s : Text) :
    innermostList.Skips b (beginTag kind.name.toList) (x ++ s) := by
  obtain ⟨front, inner, rest, hfront, rfl⟩ := hx
  have hplain : '\\' ∉ "begin".toList ++ braced kind.name.toList := by
    simp [braced, kind.not_mem_name]
  have hwalks : (notAhead listOpening ++ any).Walks front
      (beginTag inner.name.toList ++ (rest ++ s)) :=
    walks_notAhead leads_listOpening fun _ hw => List.mem_singleton.1 hw ▸ hfront.avoids_begin _
  have hstop : ∀ b slots k, (notAhead listOpening ++ any).run
      ⟨b, beginTag inner.name.toList ++ (rest ++ s), slots⟩ k = none := by
    intro b slots k
    have hahead : (notAhead listOpening).run ⟨b, beginTag inner.name.toList ++ (rest ++ s), slots⟩
        (fun t => any.run t k) = none := by
      rw [run, run_listOpening]
    exact hahead
  have hend : ¬ endTag kind.name.toList <+: beginTag inner.name.toList ++ (rest ++ s) := by
    intro hp
    have hclash : Clash (endTag kind.name.toList) (beginTag inner.name.toList) := by
      cases kind <;> cases inner <;> decide
    exact (hclash.append [] (rest ++ s)).1 (by rwa [List.append_nil])
  have hblocked := environmentPattern_blocked kind.mem_names kind.alone (hfront.avoids_end _ _)
    hwalks hend hstop b
  have hassoc : front ++ (beginTag inner.name.toList ++ (rest ++ s)) =
      front ++ (beginTag inner.name.toList ++ rest) ++ s := by simp only [List.append_assoc]
  rw [hassoc] at hblocked
  exact ⟨hblocked, opens_innermostList.skips hplain _⟩

/-- Of a list with lists in it, the tags are left as they are. -/
theorem rewrites_outer {act : Drafting Text} (hopens : OpensList x)
    (hx : ∀ s, innermostList.Rewrites formatList x s act) (kind : ListKind) (s : Text) :
    innermostList.Rewrites formatList (kind.tagged x) s (kind.tagged <$> act) := by
  have hbegin : innermostList.Rewrites formatList (beginTag kind.name.toList)
      (x ++ (endTag kind.name.toList ++ s)) (pure (beginTag kind.name.toList)) :=
    Skips.rewrites opens_innermostList.consumes (fun _ _ => rfl) fun b =>
      hopens.skips_beginTag kind b _
  have hend : innermostList.Rewrites formatList (endTag kind.name.toList) s
      (pure (endTag kind.name.toList)) :=
    Skips.rewrites opens_innermostList.consumes (fun _ _ => rfl) fun b => skips_endTag kind b s
  have hact : (kind.tagged <$> act : Drafting Text) = (do
      let u ← do
        let u ← pure (beginTag kind.name.toList)
        let v ← act
        pure (u ++ v)
      let v ← pure (endTag kind.name.toList)
      pure (u ++ v)) := by
    rw [show kind.tagged = fun y => beginTag kind.name.toList ++ y ++ endTag kind.name.toList from rfl]
    simp
  rw [hact]
  exact (hbegin.append (hx _)).append hend

/-! ## Passes -/

/-- The passes over trees that a pass turns into trees with fewer lists, as long as there are some. -/
theorem formatListsFrom_run {T : Type} {text : T → Text} {lists : T → Nat} {Holds : T → Draft → Prop}
    (hdone : ∀ t d, lists t = 0 → (innermostList.replaceM formatList (text t)).run d = (text t, d))
    (hpass : ∀ t d, Holds t d → lists t ≠ 0 → ∃ t' d',
      (innermostList.replaceM formatList (text t)).run d = (text t', d') ∧ Holds t' d' ∧
        text t' ≠ text t ∧ lists t' < lists t)
    {fuel : Nat} {t : T} {d : Draft} (h : Holds t d) (hfuel : lists t ≤ fuel) : ∃ t' d',
      (formatListsFrom (fuel + 1) (text t)).run d = (text t', d') ∧ Holds t' d' ∧ lists t' = 0 := by
  induction fuel generalizing t d with
  | zero =>
    have hnone : lists t = 0 := Nat.le_zero.1 hfuel
    refine ⟨t, d, ?_, h, hnone⟩
    rw [formatListsFrom, Drafting.run_bind, hdone t d hnone]
    simp
    rfl
  | succ fuel ih =>
    by_cases hnone : lists t = 0
    · refine ⟨t, d, ?_, h, hnone⟩
      rw [formatListsFrom, Drafting.run_bind, hdone t d hnone]
      simp
      rfl
    · obtain ⟨u, e, hrun, hu, hchange, hless⟩ := hpass t d h hnone
      obtain ⟨t', d', hlater, hdone'⟩ := ih hu (by omega)
      refine ⟨t', d', ?_, hdone'⟩
      rw [formatListsFrom, Drafting.run_bind, hrun]
      simp only [if_neg hchange]
      exact hlater

/-! ## The number of passes -/

theorem opens_listOpening : listOpening.Opens '\\' :=
  (opens_opening _).alt ((opens_opening _).alt (opens_opening _))

theorem consumes_listOpening : listOpening.Consumes := opens_listOpening.consumes

theorem countFrom_plain (hx : Listless x) (b : Option Char) (s : Text) :
    listOpening.countFrom b (x ++ s) = listOpening.countFrom (x.getLast?.or b) s :=
  countFrom_skips consumes_listOpening <|
    leads_listOpening.skips fun _ hw => List.mem_singleton.1 hw ▸ hx.avoids_begin s

/-- A list counts one more than what is in it. -/
theorem countFrom_tagged {n : Nat} (hx : ∀ b s, listOpening.countFrom b (x ++ s) =
      n + listOpening.countFrom (x.getLast?.or b) s) (kind : ListKind) (b : Option Char) (s : Text) :
    listOpening.countFrom b (kind.tagged x ++ s) =
      n + 1 + listOpening.countFrom ((kind.tagged x).getLast?.or b) s := by
  have hskips : ∀ b, listOpening.Skips b (endTag kind.name.toList) s := fun b =>
    leads_listOpening.skips fun _ hw => List.mem_singleton.1 hw ▸ avoids_endTag kind s
  rw [ListKind.tagged, List.append_assoc, List.append_assoc,
    countFrom_hit consumes_listOpening (by simp [beginTag]) (run_listOpening kind _ b [] some) rfl, hx,
    countFrom_skips consumes_listOpening (hskips _), getLast?_append_or, getLast?_append_or]
  omega

end LatexPreview
