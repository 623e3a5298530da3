import Mathlib
import LatexPreview.Proofs.Environments.Clearing
import LatexPreview.Proofs.Lists.Innermost

/-!
# Lists in trees

The stage for lists takes out the lists in which there are no others, pass by pass.  So it takes out
all lists of a tree in which there are no other environments, whatever is in them.

* `listClearing` is a pass of the stage for lists
* `exists_formatLists_tree`: all passes together leave no lists
-/

namespace LatexPreview

open Pattern Text

/-! ## Parts of a source -/

theorem Enclosure.exists_list {e : Enclosure} (h : e.place = .list) : ∃ kind, e = .list kind := by
  cases e with
  | list kind => exact ⟨kind, rfl⟩
  | quote | quotation | tabular _ _ => simp [place] at h

theorem Enclosure.tagged_list (kind : ListKind) (x : Text) :
    (Enclosure.list kind).tagged x = kind.tagged x := by
  simp [tagged, opening, declaration, closing, name, ListKind.tagged]

theorem EnvLeaf.listless {p : EnvPlace} (hp : p ≠ .table) (x : EnvLeaf p) : Listless x.text := by
  have hitem : ∀ v, '\\' ∉ v → Listless (itemCommand ++ v) := fun v hv s =>
    commands_append.2 ⟨commands_word List.mem_cons_self (by decide), commands_of_not_mem hv⟩
  cases x with
  | char c hc => exact .of_not_mem (List.mem_singleton.not.2 (hc.ne (by simp)))
  | item => exact hitem [] (by simp)
  | term t ht =>
    have hplain := IsPlain.not_mem ht (d := '\\') (by simp)
    exact hitem _ (by simp [hplain])
  | row => exact absurd rfl hp

namespace EnvTree

variable {p : EnvPlace}

theorem listless_text {t : EnvTree p} (hp : p ≠ .table) (h : t.places = []) : Listless t.text := by
  induction t with
  | nil => exact .of_not_mem (by simp [text])
  | leaf x more ih => exact (x.listless hp).append (ih hp h)
  | env e body more => simp [places] at h

theorem opensList_text {t : EnvTree p} (hp : p ≠ .table) (hlists : ∀ q ∈ t.places, q = .list)
    (h : t.places ≠ []) : OpensList t.text := by
  obtain ⟨front, e, rest, hfront, he, htext⟩ := t.exists_front h
  obtain ⟨kind, rfl⟩ := e.exists_list (hlists _ he)
  refine ⟨front.text, kind, rest, front.listless_text hp hfront, ?_⟩
  rw [htext]
  simp [Enclosure.opening, Enclosure.declaration, Enclosure.name]

end EnvTree

/-! ## A pass -/

theorem enclosed_listHtml (kind : ListKind) (body : Text) : Enclosed (listHtml kind body).2 := by
  cases kind with
  | itemize | enumerate | description => exact enclosed_styled

/-- What a list without lists in it is replaced by. -/
def Enclosure.takeList (x : Text) : Enclosure → Drafting Text
  | list kind => formatKind kind x
  | quote | quotation | tabular _ _ => pure x

/-- A pass of the stage for lists. -/
def listClearing : Clearing where
  pattern := innermostList
  format := formatList
  ready _ body := body.places.isEmpty
  take e x := e.takeList x
  fit e _ := e.place = .list
  consumes := opens_innermostList.consumes
  leaf x s := rewrites_leaf opens_innermostList (fun _ _ => rfl) (by decide +kernel) x s
  taken := by
    intro e body hfit hready s
    have hplaces : body.places = [] := List.isEmpty_iff.1 hready
    obtain ⟨kind, rfl⟩ := e.exists_list hfit
    rw [Enclosure.tagged_list]
    exact rewrites_innermost (body.listless_text (by simp [Enclosure.place]) hplaces) kind s
  left := by
    intro e body hfit hall hready act hact s
    have hplaces : body.places ≠ [] := by
      rintro hnil
      simp [hnil] at hready
    have hlists : ∀ q ∈ body.places, q = .list := EnvTree.all_place_iff.1 hall
    obtain ⟨kind, rfl⟩ := e.exists_list hfit
    have hopens := body.opensList_text (by simp [Enclosure.place]) hlists hplaces
    rw [funext (Enclosure.tagged_list kind)]
    exact rewrites_outer hopens hact kind s
  tidy := by
    intro e body hfit hready d hd
    have htagless : Tagless body.text := tagless_text (List.isEmpty_iff.1 hready)
    obtain ⟨kind, rfl⟩ := e.exists_list hfit
    obtain ⟨hlead, hhtml⟩ := tagless_listHtml kind htagless
    obtain ⟨u, mid, hfirst, hu, hmid⟩ := hd.exists_paragraphBlock hlead
    obtain ⟨v, d', hlater, hv, hd'⟩ := hmid.exists_addBlock (enclosed_listHtml kind body.text) hhtml
    refine ⟨u ++ v, d', ?_, List.forall_mem_append.2 ⟨hu, hv⟩, hd'⟩
    rw [Enclosure.takeList, formatKind, Drafting.run_bind, hfirst, Drafting.run_bind, hlater]
    rfl

section Passes

variable {p : EnvPlace} {t t' : EnvTree p}

theorem places_sublist (h : listClearing.Clears t t') : t'.places.Sublist t.places := by
  induction h with
  | nil => exact .slnil
  | leaf x later ih => exact ih
  | taken ready plain later ih =>
    rw [EnvTree.places_chars]
    exact (ih.trans (List.sublist_append_right _ _)).cons _
  | left ready within later ihbody ihmore => exact (ihbody.append ihmore).cons_cons _

/-- As long as there are lists, some of them have no others in them. -/
theorem length_places_lt (h : listClearing.Clears t t') (hne : t.places ≠ []) :
    t'.places.length < t.places.length := by
  induction h with
  | nil => exact absurd rfl hne
  | leaf x later ih => exact ih hne
  | taken ready plain later ih =>
    have hless := (places_sublist later).length_le
    simp only [EnvTree.places_chars, EnvTree.places, List.length_cons, List.length_append]
    omega
  | left ready within later ihbody ihmore =>
    have hbody := ihbody fun hnil => by simp [listClearing, hnil] at ready
    have hmore := (places_sublist later).length_le
    simp only [EnvTree.places, List.length_cons, List.length_append]
    omega

/-- Each list has two tags, with a pair of braces in each. -/
theorem count_braces (hlists : ∀ q ∈ t.places, q = .list) : t.text.count '{' = 2 * t.places.length := by
  induction t with
  | nil => rfl
  | leaf x more ih =>
    have hnone : x.text.count '{' = 0 := List.count_eq_zero.2 (x.not_mem_text (by simp))
    rw [EnvTree.text, List.count_append, hnone, ih hlists, Nat.zero_add]
    rfl
  | env e body more ihbody ihmore =>
    simp only [EnvTree.places, List.forall_mem_cons, List.forall_mem_append] at hlists
    obtain ⟨kind, rfl⟩ := e.exists_list hlists.1
    have hname : kind.name.toList.count '{' = 0 := List.count_eq_zero.2 (kind.not_mem_name (by simp))
    have htags : ∀ x : Text, (kind.tagged x).count '{' = x.count '{' + 2 := by
      intro x
      simp [ListKind.tagged, beginTag, endTag, braced, hname]
    rw [EnvTree.text, List.count_append, Enclosure.tagged_list, htags, ihbody hlists.2.1,
      ihmore hlists.2.2, EnvTree.places, List.length_cons, List.length_append]
    omega

/-- The stage counts all lists beforehand. -/
theorem countFrom_tree (hp : p ≠ .table) (hlists : ∀ q ∈ t.places, q = .list) (b : Option Char)
    (s : Text) : listOpening.countFrom b (t.text ++ s) =
      t.places.length + listOpening.countFrom (t.text.getLast?.or b) s := by
  induction t generalizing b s with
  | nil => simp [EnvTree.text, EnvTree.places]
  | leaf x more ih =>
    rw [EnvTree.text, List.append_assoc, countFrom_plain (x.listless hp), ih hp hlists,
      getLast?_append_or]
    rfl
  | env e body more ihbody ihmore =>
    simp only [EnvTree.places, List.forall_mem_cons, List.forall_mem_append] at hlists
    obtain ⟨kind, rfl⟩ := e.exists_list hlists.1
    have hbody := ihbody (by simp [Enclosure.place]) hlists.2.1
    rw [EnvTree.text, Enclosure.tagged_list, List.append_assoc, countFrom_tagged hbody,
      ihmore hp hlists.2.2, getLast?_append_or, EnvTree.places, List.length_cons, List.length_append]
    omega

end Passes

/-! ## All passes -/

/-- The stage for lists takes all lists out of a tree in which there is nothing else. -/
theorem exists_formatLists_tree {t : EnvTree .outside} (hlists : ∀ q ∈ t.places, q = .list)
    {d : Draft} (hd : d.Tidy) : ∃ (t' : EnvTree .outside) (d' : Draft),
      (formatLists t.text).run d = (t'.text, d') ∧ t'.places = [] ∧ d'.Tidy := by
  have hdone : ∀ (t : EnvTree .outside) (d : Draft), t.places.length = 0 →
      (innermostList.replaceM formatList t.text).run d = (t.text, d) := by
    intro t d hnone
    have hlistless := t.listless_text (by simp) (List.length_eq_zero_iff.1 hnone)
    rw [(rewrites_plain hlistless []).replaceM_eq opens_innermostList.consumes]
    rfl
  have hpass : ∀ (t : EnvTree .outside) (d : Draft), (∀ q ∈ t.places, q = .list) ∧ d.Tidy →
      t.places.length ≠ 0 → ∃ (t' : EnvTree .outside) (d' : Draft),
        (innermostList.replaceM formatList t.text).run d = (t'.text, d') ∧
        ((∀ q ∈ t'.places, q = .list) ∧ d'.Tidy) ∧ t'.text ≠ t.text ∧
        t'.places.length < t.places.length := by
    rintro t d ⟨hlists, hd⟩ hsome
    obtain ⟨t', d', hrun, hclears, hd'⟩ := listClearing.exists_pass
      (EnvTree.all_place_iff.2 hlists : t.All listClearing.fit) hd
    have hlists' : ∀ q ∈ t'.places, q = .list := fun q hq =>
      hlists q ((places_sublist hclears).subset hq)
    have hless := length_places_lt hclears (by simpa using hsome)
    refine ⟨t', d', hrun, ⟨hlists', hd'⟩, fun heq => ?_, hless⟩
    have hsame := count_braces hlists'
    rw [heq, count_braces hlists] at hsame
    omega
  have hfuel : t.places.length ≤ listOpening.count t.text := by
    have hcount := countFrom_tree (t := t) (by simp) hlists none []
    rw [List.append_nil] at hcount
    rw [count_eq, hcount]
    exact Nat.le_add_right _ _
  obtain ⟨t', d', hrun, ⟨-, hd'⟩, hnone⟩ := formatListsFrom_run hdone hpass ⟨hlists, hd⟩ hfuel
  exact ⟨t', d', hrun, List.length_eq_zero_iff.1 hnone, hd'⟩

end LatexPreview
