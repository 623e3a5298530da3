import Mathlib
import LatexPreview.Proofs.Lists.Innermost
import LatexPreview.Proofs.MathText.Delimiters
import LatexPreview.Proofs.Pattern.Border
import LatexPreview.Proofs.Placeholder.Token
import LatexPreview.Proofs.Text.Words

/-!
# The passes over lists come to an end

A pass may make a text longer, as what replaces a list may be longer than its source.  What becomes
less is the number of tags that open a list.  A list that is taken out has one of them, at its very
front, and leaves a token between line breaks, which no tag reaches over.  So the loop of
passes ends, in a text from which there is nothing left to take out.

* `ListPass`, `ListPasses`: a pass, and the loop with no bound on its passes
* `count_listOpening_append`: on both sides of a seam, tags are counted apart
* `matches_environmentPattern`: an environment is two tags of a name, with steps between them
* `count_listOpening_of_found`: a list that is taken out has one opening tag
* `count_listOpening_formatList`: what it leaves has none, and makes none with what stands around it
* `ListPass.count_add`: a pass takes away as many tags as it takes out lists
* `formatLists_ends`: the loop ends with no list left
-/

namespace LatexPreview

open Pattern Text

variable {s t new : Text} {d e : Draft}

/-! ## Passes and their loop -/

/-- One pass over a text. -/
def ListPass (s : Text) (d : Draft) (new : Text) (e : Draft) : Prop :=
  (innermostList.replaceM formatList s).run d = (new, e)

/-- The loop of passes until one changes nothing. -/
inductive ListPasses : Text → Draft → Text → Draft → Prop
  | finished {s : Text} {d e : Draft} (pass : ListPass s d s e) : ListPasses s d s e
  | changed {s new t : Text} {d d' e : Draft} (pass : ListPass s d new d') (change : new ≠ s)
      (later : ListPasses new d' t e) : ListPasses s d t e

theorem ListPass.unique {new' : Text} {e' : Draft} (h : ListPass s d new e)
    (h' : ListPass s d new' e') : new' = new ∧ e' = e :=
  Prod.mk.inj (Eq.trans (Eq.symm h') h)

theorem ListPasses.unique {t' : Text} {e' : Draft} (h : ListPasses s d t e)
    (h' : ListPasses s d t' e') : t' = t ∧ e' = e := by
  induction h with
  | finished pass =>
    cases h' with
    | finished pass' => exact pass.unique pass'
    | changed pass' change' _ => exact absurd (pass.unique pass').1 change'
  | changed pass change later ih =>
    cases h' with
    | finished pass' => exact absurd (pass'.unique pass).1 change
    | changed pass' _ later' =>
      obtain ⟨rfl, rfl⟩ := pass.unique pass'
      exact ih later'

/-! ## Counting the opening tags -/

theorem unaware_listOpening : listOpening.Unaware :=
  (unaware_lit '\\' _).alt ((unaware_lit '\\' _).alt (unaware_lit '\\' _))

theorem matches_listOpening {c u : Cursor} (h : listOpening.Matches c u) :
    ∃ kind : ListKind, c.rest = beginTag kind.name.toList ++ u.rest := by
  have hpattern : listOpening = nameAmong (ListKind.names.map beginTag) := rfl
  rw [hpattern] at h
  obtain ⟨tag, htag, hrest⟩ := matches_nameAmong (by decide) h
  obtain ⟨name, hname, rfl⟩ := List.mem_map.1 htag
  obtain ⟨kind, -, rfl⟩ := List.mem_map.1 hname
  exact ⟨kind, hrest⟩

theorem run_listOpening_eq_none_iff {c : Cursor} :
    listOpening.run c some = none ↔ ∀ kind : ListKind, ¬ beginTag kind.name.toList <+: c.rest := by
  obtain ⟨before, rest, slots⟩ := c
  constructor
  · rintro hnone kind ⟨s, rfl⟩
    rw [run_listOpening] at hnone
    exact absurd hnone (by simp)
  · intro h
    refine Option.eq_none_iff_forall_ne_some.2 fun u hu => ?_
    obtain ⟨u, hmatch, -⟩ := run_sound hu
    obtain ⟨kind, hrest⟩ := matches_listOpening hmatch
    exact h kind ⟨u.rest, hrest.symm⟩

theorem count_listOpening_nil : listOpening.count [] = 0 := by
  rw [count_eq, countFrom, cutFrom, cutAtMost_nil consumes_listOpening]
  rfl

theorem count_listOpening_cons {c : Char}
    (h : ∀ kind : ListKind, ¬ beginTag kind.name.toList <+: c :: s) :
    listOpening.count (c :: s) = listOpening.count s := by
  have hnone : listOpening.at? none (c :: s) = none := run_listOpening_eq_none_iff.2 h
  rw [count_eq, ← unaware_listOpening.countFrom_eq (some c) s]
  exact countFrom_skips (x := [c]) consumes_listOpening ⟨hnone, trivial⟩

theorem count_listOpening_beginTag (kind : ListKind) (s : Text) :
    listOpening.count (beginTag kind.name.toList ++ s) = listOpening.count s + 1 := by
  rw [count_eq, countFrom_hit consumes_listOpening (by simp [beginTag])
    (run_listOpening kind s none [] some) rfl, unaware_listOpening.countFrom_eq, Nat.add_comm]

theorem count_listOpening_endTag (kind : ListKind) (s : Text) :
    listOpening.count (endTag kind.name.toList ++ s) = listOpening.count s := by
  have hskips : listOpening.Skips none (endTag kind.name.toList) s :=
    leads_listOpening.skips fun _ hw => List.mem_singleton.1 hw ▸ avoids_endTag kind s
  rw [count_eq, countFrom_skips consumes_listOpening hskips, unaware_listOpening.countFrom_eq]

theorem count_listOpening_of_not_mem {x : Text} (hx : '\\' ∉ x) (s : Text) :
    listOpening.count (x ++ s) = listOpening.count s := by
  rw [count_eq, countFrom_skips consumes_listOpening (opens_listOpening.skips hx s),
    unaware_listOpening.countFrom_eq]

/-- No tag reaches over a character that it has nowhere, but perhaps at its front. -/
theorem count_listOpening_append {c : Char}
    (hc : ∀ kind : ListKind, c ∉ "begin".toList ++ braced kind.name.toList) (x s : Text) :
    listOpening.count (x ++ c :: s) = listOpening.count x + listOpening.count (c :: s) := by
  refine cutFrom_induction consumes_listOpening (motive := fun _ x =>
    listOpening.count (x ++ c :: s) = listOpening.count x + listOpening.count (c :: s))
    (fun b => ?_) (fun b a x hat ih => ?_) (fun b m stop hm hat ih => ?_) none x
  · rw [count_listOpening_nil, Nat.zero_add, List.nil_append]
  · -- a tag that starts here would end in front of the seam
    have hnone := run_listOpening_eq_none_iff.1 hat
    have hlater : ∀ kind : ListKind, ¬ beginTag kind.name.toList <+: a :: (x ++ c :: s) := by
      intro kind hp
      obtain ⟨ha, hp⟩ := List.cons_prefix_cons.1 hp
      exact hnone kind (List.cons_prefix_cons.2 ⟨ha, prefix_of_not_mem (hc kind) hp⟩)
    rw [List.cons_append, count_listOpening_cons hlater, count_listOpening_cons hnone, ih]
  · obtain ⟨kind, hrest⟩ := matches_listOpening (matches_of_at? hat)
    obtain rfl : m = beginTag kind.name.toList := List.append_cancel_right hrest
    rw [List.append_assoc, count_listOpening_beginTag, count_listOpening_beginTag, ih,
      Nat.add_right_comm]

/-! ## A list that is taken out -/

/-- An environment is two tags of a name, and a row of steps between them. -/
theorem matches_environmentPattern {names : List Text} {step : Pattern} {c u : Cursor}
    (hnames : names ≠ []) (hstep : step.Bare) (h : (environmentPattern names step).Matches c u) :
    ∃ name ∈ names, ∃ first last : Cursor, c.rest = beginTag name ++ first.rest ∧
      Relation.ReflTransGen (fun a b => step.Matches a b) first last ∧
      last.rest = endTag name ++ u.rest := by
  obtain ⟨m₈, ⟨m₇, ⟨m₆, ⟨m₅, ⟨m₄, ⟨m₃, ⟨m₂, ⟨m₁, hbegin, hopen⟩, hcapture⟩, hnamed⟩, hbody⟩,
    hend⟩, hopen'⟩, hagain⟩, hclose⟩ := h
  obtain ⟨n, hname, rfl⟩ := hcapture
  obtain ⟨name, hmem, hname⟩ := matches_nameAmong hnames hname
  have hnamed' : n.rest = '}' :: m₄.rest :=
    matches_one_eq (s := { n with slots := ("env", m₂.rest, n.rest) :: n.slots }) hnamed
  obtain ⟨last, hsteps, rfl⟩ := hbody
  have hslots : m₇.slots =
      ("body", m₄.rest, last.rest) :: ("env", name ++ n.rest, n.rest) :: n.slots := by
    have hsame : last.slots = m₄.slots := Matches.slots_eq (p := fewest step) hstep hsteps
    rw [hopen'.slots_eq (p := one _) trivial, hend.slots_eq (bare_lit _), hsame,
      hnamed.slots_eq (p := one _) trivial, hname]
  obtain ⟨hagain, -⟩ := matches_again hagain (get?_of_slots_below (by decide) hslots)
  have hend' : last.rest = "\\end".toList ++ m₆.rest :=
    matches_lit (s := { last with slots := ("body", m₄.rest, last.rest) :: last.slots }) hend
  refine ⟨name, hmem, m₄, last, ?_, hsteps, ?_⟩
  · rw [matches_lit hbegin, matches_one_eq hopen, hname, hnamed']
    simp [beginTag, braced]
  · rw [hend', matches_one_eq hopen', hagain, matches_one_eq hclose]
    simp [endTag, braced]

/-- The body of a list goes on over places at which no list is opened. -/
theorem count_listOpening_of_steps {first last : Cursor} (h : Relation.ReflTransGen
      (fun a b => (notAhead listOpening ++ any).Matches a b) first last) :
    listOpening.count first.rest = listOpening.count last.rest := by
  induction h with
  | refl => rfl
  | tail _ hstep ih =>
    obtain ⟨m, ⟨hnone, rfl⟩, c, r, hrest, -, rfl⟩ := hstep
    have hfree := run_listOpening_eq_none_iff.1 hnone
    rw [hrest] at hfree
    rw [ih, hrest, count_listOpening_cons hfree]
    rfl

/-- A list that is taken out has one opening tag. -/
theorem count_listOpening_of_found {h : Hit} (hf : innermostList.Found h) (x : Text) :
    listOpening.count (x ++ h.matched ++ h.stop.rest) =
      listOpening.count x + listOpening.count h.stop.rest + 1 := by
  obtain ⟨b, hmatch⟩ := hf
  rw [innermostList_eq] at hmatch
  obtain ⟨name, hname, first, last, hbegin, hsteps, hend⟩ :=
    matches_environmentPattern (by decide) (by exact ⟨trivial, trivial⟩) hmatch
  obtain ⟨kind, -, rfl⟩ := List.mem_map.1 hname
  have hbegin' : h.matched ++ h.stop.rest = beginTag kind.name.toList ++ first.rest := hbegin
  have hseam : listOpening.count (x ++ (beginTag kind.name.toList ++ first.rest)) =
      listOpening.count x + listOpening.count (beginTag kind.name.toList ++ first.rest) :=
    count_listOpening_append (by intro kind; cases kind <;> decide) x _
  rw [List.append_assoc, hbegin', hseam, count_listOpening_beginTag,
    count_listOpening_of_steps hsteps, hend, count_listOpening_endTag, Nat.add_assoc]

/-! ## What is left of a list -/

theorem addBlock_run_eq (hname : '\\' ∉ d.blocks.name) (html : Text) : ∃ x,
    ((addBlock html).run d).1 = '\n' :: x ∧ '\\' ∉ x := by
  refine ⟨'\n' :: (placeholder d.blocks.name d.blocks.size ++ "\n\n".toList), by rfl, ?_⟩
  have htoken : '\\' ∉ placeholder d.blocks.name d.blocks.size :=
    not_mem_placeholder (by decide) hname (by decide) _
  simp [htoken]

theorem paragraphBlock_run_eq (hname : '\\' ∉ d.blocks.name) (lead : Text) :
    (((paragraphBlock lead).run d).1 = [] ∨
      ∃ x, ((paragraphBlock lead).run d).1 = '\n' :: x ∧ '\\' ∉ x) ∧
      ((paragraphBlock lead).run d).2.blocks.name = d.blocks.name := by
  rw [paragraphBlock]
  split
  · exact ⟨.inl rfl, rfl⟩
  · exact ⟨.inr (addBlock_run_eq hname _), rfl⟩

/-- What is left of a list starts with a line break, and has no backslash. -/
theorem formatList_run_eq (hname : '\\' ∉ d.blocks.name) (h : Hit) :
    (∃ x, ((formatList h).run d).1 = '\n' :: x ∧ '\\' ∉ x) ∧
      ((formatList h).run d).2.blocks.name = d.blocks.name := by
  rw [formatList_eq, formatKind, Drafting.run_bind]
  obtain ⟨hlead, hkept⟩ := paragraphBlock_run_eq hname
    (listHtml (ListKind.ofName (h.get "env")) (h.get "body")).1
  generalize (paragraphBlock _).run d = first at hlead hkept ⊢
  obtain ⟨y, hlist, hy⟩ := addBlock_run_eq (hkept ▸ hname)
    (listHtml (ListKind.ofName (h.get "env")) (h.get "body")).2
  refine ⟨?_, hkept⟩
  rcases hlead with hnil | ⟨x, hx, hplain⟩
  · refine ⟨y, ?_, hy⟩
    rw [hnil, Drafting.run_bind, hlist]
    rfl
  · refine ⟨x ++ '\n' :: y, ?_, by simp [hplain, hy]⟩
    rw [hx, Drafting.run_bind, hlist]
    rfl

/-- What is left of a list has no opening tag, and makes none with what stands around it. -/
theorem count_listOpening_formatList (hname : '\\' ∉ d.blocks.name) (h : Hit) (x s : Text) :
    listOpening.count (x ++ ((formatList h).run d).1 ++ s) =
      listOpening.count x + listOpening.count s := by
  obtain ⟨⟨y, hrun, hy⟩, -⟩ := formatList_run_eq hname h
  have hplain : '\\' ∉ '\n' :: y := by simp [hy]
  rw [hrun, List.append_assoc, List.cons_append,
    count_listOpening_append (by intro kind; cases kind <;> decide), ← List.cons_append,
    count_listOpening_of_not_mem hplain]

/-! ## A pass -/

/-- A pass takes away as many opening tags as it takes out lists. -/
theorem ListPass.count_add (hname : '\\' ∉ d.blocks.name) (h : ListPass s d new e) :
    e.blocks.name = d.blocks.name ∧
      listOpening.count new + innermostList.count s = listOpening.count s := by
  have hcounts := replaceM_counts (p := innermostList) (f := formatList) (s := s) (d := d)
    (P := fun n e t => e.blocks.name = d.blocks.name ∧
      listOpening.count t + n = listOpening.count s)
    (by
      rintro n d' front hit - hf ⟨hkept, hcount⟩
      have hname' : '\\' ∉ d'.blocks.name := hkept ▸ hname
      rw [count_listOpening_of_found hf] at hcount
      rw [count_listOpening_formatList hname']
      exact ⟨(formatList_run_eq hname' hit).2.trans hkept, by omega⟩) ⟨rfl, rfl⟩
  rwa [show (innermostList.replaceM formatList s).run d = (new, e) from h] at hcounts

/-- A pass that changes the text leaves fewer opening tags. -/
theorem ListPass.count_lt (hname : '\\' ∉ d.blocks.name) (h : ListPass s d new e) (hne : new ≠ s) :
    listOpening.count new < listOpening.count s := by
  have hcount := (h.count_add hname).2
  -- a text without lists would have been left as it is
  have hlists : innermostList.count s ≠ 0 := by
    intro hzero
    have hsame : (innermostList.replaceM formatList s).run d = (s, d) := by
      rw [replaceM_of_count_eq_zero hzero]
      rfl
    exact hne (h.unique hsame).1.symm
  omega

/-! ## All passes -/

/-- With more fuel than opening tags, it is the loop that comes to an end, and not the fuel. -/
theorem formatListsFrom_passes {fuel : Nat} (hname : '\\' ∉ d.blocks.name)
    (hfuel : listOpening.count s < fuel) :
    ListPasses s d ((formatListsFrom fuel s).run d).1 ((formatListsFrom fuel s).run d).2 := by
  induction fuel generalizing s d with
  | zero => exact absurd hfuel (Nat.not_lt_zero _)
  | succ fuel ih =>
    rw [formatListsFrom, Drafting.run_bind]
    cases hrun : (innermostList.replaceM formatList s).run d with
    | mk new e =>
      have hpass : ListPass s d new e := hrun
      by_cases hsame : new = s
      · subst hsame
        simp only [if_true]
        exact .finished hpass
      · have hname' : '\\' ∉ e.blocks.name := (hpass.count_add hname).1 ▸ hname
        have hless := hpass.count_lt hname hsame
        simp only [if_neg hsame]
        exact .changed hpass hsame (ih hname' (by omega))

/-- When the loop has come to an end, no list is left. -/
theorem ListPasses.occursIn_eq_false (h : ListPasses s d t e) (hname : '\\' ∉ d.blocks.name) :
    innermostList.occursIn t = false := by
  induction h with
  | finished pass =>
    refine (count_eq_zero_iff opens_innermostList.consumes).1 ?_
    have hcount := (pass.count_add hname).2
    omega
  | changed pass change later ih => exact ih ((pass.count_add hname).1 ▸ hname)

/-- The loop comes to an end, with a text in which there is no list left to take out.  Each pass
that changes a text leaves fewer opening tags in it, as what is left of a list makes none with
anything that stands around it.  This holds for every state of a conversion, as the tokens of its
blocks have the name `Draft.blockName`, and for all states whose tokens have no backslash. -/
theorem formatLists_ends (s : Text) (d : Draft) (hname : '\\' ∉ d.blocks.name) :
    (∀ t e, ListPasses s d t e ↔ (formatLists s).run d = (t, e)) ∧
      innermostList.occursIn ((formatLists s).run d).1 = false ∧
      (∀ new e, ListPass s d new e → e.blocks.name = d.blocks.name ∧
        (new ≠ s → listOpening.count new < listOpening.count s)) ∧
      ∀ h x y, listOpening.count (x ++ ((formatList h).run d).1 ++ y) =
        listOpening.count x + listOpening.count y := by
  have hends : ListPasses s d ((formatLists s).run d).1 ((formatLists s).run d).2 :=
    formatListsFrom_passes hname (Nat.lt_succ_self _)
  refine ⟨fun t e => ⟨fun h => ?_, fun h => ?_⟩, hends.occursIn_eq_false hname,
    fun new e h => ⟨(h.count_add hname).1, h.count_lt hname⟩, count_listOpening_formatList hname⟩
  · obtain ⟨ht, he⟩ := h.unique hends
    exact Prod.ext ht he
  · rwa [h] at hends

/-- A list in a list. -/
def nestedLists : Text :=
  ListKind.itemize.tagged ("\\item".toList ++ ListKind.enumerate.tagged "\\item".toList)

/-- A list in a list takes two passes. -/
theorem formatLists_ends_nested : '\\' ∉ Draft.fresh.blocks.name ∧
    ((innermostList.replaceM formatList nestedLists).run Draft.fresh).1 ≠ nestedLists ∧
    listOpening.count ((innermostList.replaceM formatList nestedLists).run Draft.fresh).1 <
      listOpening.count nestedLists ∧
    innermostList.occursIn
      ((innermostList.replaceM formatList nestedLists).run Draft.fresh).1 = true ∧
    innermostList.occursIn ((formatLists nestedLists).run Draft.fresh).1 = false := by
  have hname : '\\' ∉ Draft.fresh.blocks.name := by decide
  have hchange :
      ((innermostList.replaceM formatList nestedLists).run Draft.fresh).1 ≠ nestedLists := by
    decide +kernel
  obtain ⟨-, hnone, hpass, -⟩ := formatLists_ends nestedLists Draft.fresh hname
  have hless := (hpass _ _ Prod.mk.eta.symm).2 hchange
  exact ⟨hname, hchange, hless, by decide +kernel, hnone⟩

end LatexPreview
