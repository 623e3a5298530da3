import Mathlib
import LatexPreview.Proofs.Convert.Growth
import LatexPreview.Proofs.Environments.Tags
import LatexPreview.Proofs.Environments.Tree
import LatexPreview.Proofs.Pattern.Rewriting

/-!
# Stages that take environments out

A stage takes some environments out of a document as a whole and leaves the others where they are.
Where it is given what it is made for, the rest is the source of a tree again; elsewhere a block is
stored in which a tag is left.

* `Clearing` is such a stage, with what it takes and what it is made for
* `Clearing.exists_pass`: what a pass leaves of a tree
* `Clearing.places_eq`, `Clearing.all_iff`: the environments that are left
* `Clearing.stains`: a tag is stored, if a tree is not what the stage is made for
-/

namespace LatexPreview

open Pattern Text

/-! ## Drafts of elements -/

/-- Nothing but blocks has been taken out, and all of them are elements. -/
structure Draft.HasElements (d : Draft) : Prop where
  math : d.math = .empty Draft.mathName
  header : d.header = []
  name : d.blocks.name = Draft.blockName
  enclosed : ∀ content ∈ d.blocks.contents, Enclosed content

/-- None of the blocks holds a tag. -/
structure Draft.Tidy (d : Draft) : Prop where
  elements : d.HasElements
  tagless : ∀ content ∈ d.blocks.contents, Tagless content

theorem tidy_fresh : Draft.fresh.Tidy :=
  ⟨⟨rfl, rfl, rfl, fun _ h => absurd h List.not_mem_nil⟩, fun _ h => absurd h List.not_mem_nil⟩

section Blocks

variable {d : Draft} {html s : Text}

theorem Draft.HasElements.addBlock (h : d.HasElements) (hhtml : Enclosed html) :
    ((addBlock html).run d).2.HasElements where
  math := h.math
  header := h.header
  name := h.name
  enclosed := List.forall_mem_append.2 ⟨h.enclosed, List.forall_mem_singleton.2 hhtml⟩

/-- A block leaves plain text in its place. -/
theorem Draft.Tidy.exists_addBlock (h : d.Tidy) (henclosed : Enclosed html) (hhtml : Tagless html) :
    ∃ u d', (LatexPreview.addBlock html).run d = (u, d') ∧ (∀ c ∈ u, IsPlain c) ∧ d'.Tidy := by
  refine ⟨_, _, rfl, fun c hc => ?_, h.elements.addBlock henclosed, ?_⟩
  · have hplain : ∀ c, c = '\n' ∨ c = '_' ∨ c ∈ ['B', 'L', 'K'] ∨ c.isDigit = true → IsPlain c := by
      rintro c (rfl | rfl | hc | hc)
      · decide
      · decide
      · simp only [List.mem_cons, List.not_mem_nil, or_false] at hc
        rcases hc with rfl | rfl | rfl <;> decide
      · intro hmem
        simp only [List.mem_cons, List.not_mem_nil, or_false] at hmem
        rcases hmem with rfl | rfl | rfl | rfl | rfl | rfl <;> exact absurd hc (by decide)
    have hline : ∀ c ∈ "\n\n".toList, c = '\n' := by simp
    rcases List.mem_append.1 hc with hc | hc
    · rcases List.mem_append.1 hc with hc | hc
      · exact hplain c (.inl (hline c hc))
      · have htoken : c ∈ placeholder d.blocks.name d.blocks.size := hc
        rw [h.elements.name] at htoken
        exact hplain c (.inr (mem_placeholder htoken))
    · exact hplain c (.inl (hline c hc))
  · exact List.forall_mem_append.2 ⟨h.tagless, List.forall_mem_singleton.2 hhtml⟩

theorem Draft.HasElements.paragraphBlock (h : d.HasElements) (s : Text) :
    ((paragraphBlock s).run d).2.HasElements := by
  rw [LatexPreview.paragraphBlock]
  split
  · exact h
  · exact h.addBlock enclosed_styled

theorem Draft.Tidy.exists_paragraphBlock (h : d.Tidy) (hs : Tagless s) :
    ∃ u d', (LatexPreview.paragraphBlock s).run d = (u, d') ∧ (∀ c ∈ u, IsPlain c) ∧ d'.Tidy := by
  rw [LatexPreview.paragraphBlock]
  split
  · exact ⟨[], d, rfl, by simp, h⟩
  · refine h.exists_addBlock enclosed_styled ((tagless_styled (by simp [blockElements])).2 ?_)
    exact hs.of_part (trim_isInfix s)

end Blocks

/-! ## Patterns that refuse commands -/

section Refused

variable {p : Pattern} {f : Hit → Drafting Text} {q : EnvPlace} (hp : p.Opens '\\')
  (hf : ∀ h gap, f { h with gap } = f h)

include hp hf

theorem rewrites_leaf (hrefuses : ∀ n ∈ leafNames, p.Refuses ('\\' :: n)) (x : EnvLeaf q) (s : Text) :
    p.Rewrites f x.text s (pure x.text) := by
  obtain ⟨c, hlast, hc⟩ := x.last_text
  have hend : x.text.getLast? ≠ some '\\' := fun heq =>
    hc (Option.some.inj ((show x.text.getLast? = some c from hlast).symm.trans heq))
  exact Skips.rewrites hp.consumes hf fun _ => hp.skips_commands hrefuses (x.commands_text s) hend

theorem rewrites_opening {e : Enclosure} (h : p.Refuses ('\\' :: openingName e.name)) (s : Text) :
    p.Rewrites f e.opening s (pure e.opening) :=
  Skips.rewrites hp.consumes hf fun _ => hp.skips_commands
    (fun _ hn => List.mem_singleton.1 hn ▸ h) (e.commands_opening s) (by simp [e.last_opening])

/-- The tags of an environment are left where they are. -/
theorem rewrites_left {e : Enclosure} {x : Text} {act : Drafting Text}
    (hopening : p.Refuses ('\\' :: openingName e.name))
    (hclosing : p.Refuses ('\\' :: closingName e.name)) (hx : ∀ s, p.Rewrites f x s act) (s : Text) :
    p.Rewrites f (e.tagged x) s (e.tagged <$> act) := by
  have hback : p.Rewrites f e.closing s (pure e.closing) :=
    Skips.rewrites hp.consumes hf fun _ => hp.skips_commands
      (fun _ hn => List.mem_singleton.1 hn ▸ hclosing) (e.commands_closing s) (by simp [e.last_closing])
  have hwhole := (rewrites_opening hp hf hopening _).append ((hx _).append hback)
  have hact : (e.tagged <$> act : Drafting Text) = (do
      let u ← pure e.opening
      let v ← do
        let v ← act
        let w ← pure e.closing
        pure (v ++ w)
      pure (u ++ v)) := by
    rw [show e.tagged = fun y => e.opening ++ (y ++ e.closing) from rfl]
    simp
  rw [hact]
  exact hwhole

end Refused

/-- Without environments, there are no tags. -/
theorem tagless_text {q : EnvPlace} {t : EnvTree q} (h : t.places = []) : Tagless t.text := by
  have hclash : ∀ w ∈ ["begin\x7b".toList, "end\x7b".toList], w ≠ [] ∧ ∀ n ∈ leafNames, Clash n w := by
    decide
  have hnone : ∀ w ∈ ["begin\x7b".toList, "end\x7b".toList], ¬ '\\' :: w <:+: t.text := fun w hw =>
    (avoids_nil_iff (by simp)).1
      ((EnvTree.commands_of_places_eq_nil h []).avoids (hclash w hw).1 (hclash w hw).2)
  intro w hw
  rcases List.mem_pair.1 hw with rfl | rfl
  · exact hnone _ List.mem_cons_self
  · exact hnone _ (List.mem_cons_of_mem _ List.mem_cons_self)

/-! ## The end of an environment -/

/-- An environment with another one in it is taken to end at the first tag that closes it, which is
behind a tag that opens the other. -/
theorem exists_end (e : Enclosure) {body : EnvTree e.place} (h : body.places ≠ []) (s : Text) :
    ∃ (front : EnvTree e.place) (v r : Text), front.places = [] ∧
      body.text ++ (e.closing ++ s) = front.text ++ ("\\begin\x7b".toList ++ v) ++ (e.closing ++ r) ∧
      Avoids e.closing (front.text ++ ("\\begin\x7b".toList ++ v)) (e.closing ++ r) := by
  obtain ⟨front, inner, rest, hfront, -, htext⟩ := body.exists_front h
  obtain ⟨x, r, hx, havoids⟩ := exists_first (w := e.closing)
    (s := body.text ++ (e.closing ++ s)) ⟨body.text, s, by simp⟩
  have hinner : inner.opening =
      "\\begin\x7b".toList ++ (inner.name.toList ++ '}' :: inner.declaration) := by
    simp [Enclosure.opening, beginTag, braced]
  obtain ⟨g, hg⟩ : ∃ g, body.text ++ (e.closing ++ s) = front.text ++ "\\begin\x7b".toList ++ g :=
    ⟨inner.name.toList ++ '}' :: inner.declaration ++ rest ++ (e.closing ++ s), by
      rw [htext, hinner]
      simp⟩
  have hbegin : Commands ["begin\x7b".toList] "\\begin\x7b".toList g :=
    commands_word (n := "begin\x7b".toList) List.mem_cons_self (by decide)
  have hnone : Avoids e.closing (front.text ++ "\\begin\x7b".toList) g :=
    avoids_append.2 ⟨EnvTree.avoids_endTag hfront _ _,
      (hbegin.avoids (w := "end".toList) (by decide) (by decide)).mono (braced e.name.toList)⟩
  rcases List.append_eq_append_iff.1 (hg.symm.trans hx) with ⟨v, hv, -⟩ | ⟨v, hv, hrest⟩
  · refine ⟨front, v, r, hfront, ?_, ?_⟩
    · rw [hx, hv]
      simp
    · rwa [← List.append_assoc, ← hv]
  · cases v with
    | nil =>
      have hsame : front.text ++ ("\\begin\x7b".toList ++ []) = x := by simpa using hv
      refine ⟨front, [], r, hfront, ?_, ?_⟩
      · rw [hx, hsame]
      · rwa [hsame]
    | cons c v =>
      rw [hv] at hnone
      exact absurd ⟨r, hrest⟩ (avoids_append.1 hnone).2.1

/-! ## Clearings -/

/-- A stage that takes some environments out. -/
structure Clearing where
  pattern : Pattern
  format : Hit → Drafting Text
  /-- The environments that are taken out. -/
  ready : (e : Enclosure) → EnvTree e.place → Bool
  /-- What an environment is replaced by. -/
  take : Enclosure → Text → Drafting Text
  /-- The environments that the stage is made for. -/
  fit : (e : Enclosure) → EnvTree e.place → Prop
  consumes : pattern.Consumes
  leaf : ∀ {p : EnvPlace} (x : EnvLeaf p) (s : Text), pattern.Rewrites format x.text s (pure x.text)
  taken : ∀ {e : Enclosure} {body : EnvTree e.place}, fit e body → ready e body = true → ∀ s,
    pattern.Rewrites format (e.tagged body.text) s (take e body.text)
  left : ∀ {e : Enclosure} {body : EnvTree e.place}, fit e body → body.All fit →
    ready e body = false → ∀ {act : Drafting Text}, (∀ s, pattern.Rewrites format body.text s act) →
      ∀ s, pattern.Rewrites format (e.tagged body.text) s (e.tagged <$> act)
  tidy : ∀ {e : Enclosure} {body : EnvTree e.place}, fit e body → ready e body = true →
    ∀ {d : Draft}, d.Tidy →
      ∃ u d', (take e body.text).run d = (u, d') ∧ (∀ c ∈ u, IsPlain c) ∧ d'.Tidy

namespace Clearing

variable {p : EnvPlace}

/-- An environment is taken out, or its tags are left. -/
def passWith (c : Clearing) (within : Drafting Text) (e : Enclosure) (body : EnvTree e.place) :
    Drafting Text :=
  if c.ready e body then c.take e body.text else e.tagged <$> within

/-- A pass over the source of a tree. -/
def pass (c : Clearing) {p : EnvPlace} : EnvTree p → Drafting Text
  | .nil => pure []
  | .leaf x more => (x.text ++ ·) <$> c.pass more
  | .env e body more => do
    let u ← c.passWith (c.pass body) e body
    let v ← c.pass more
    pure (u ++ v)

/-- What a pass leaves of a tree. -/
inductive Clears (c : Clearing) : {p : EnvPlace} → EnvTree p → EnvTree p → Prop
  | nil {p : EnvPlace} : Clears c (.nil : EnvTree p) .nil
  | leaf {p : EnvPlace} (x : EnvLeaf p) {more more' : EnvTree p} (later : Clears c more more') :
      Clears c (.leaf x more) (.leaf x more')
  | taken {p : EnvPlace} {e : Enclosure} {body : EnvTree e.place} {more more' : EnvTree p} {u : Text}
      (ready : c.ready e body = true) (plain : ∀ d ∈ u, IsPlain d) (later : Clears c more more') :
      Clears c (.env e body more) (.chars u plain more')
  | left {p : EnvPlace} {e : Enclosure} {body body' : EnvTree e.place} {more more' : EnvTree p}
      (ready : c.ready e body = false) (within : Clears c body body') (later : Clears c more more') :
      Clears c (.env e body more) (.env e body' more')

variable (c : Clearing)

/-- A pass is what the stage does with a source that it is made for. -/
theorem rewrites_pass {t : EnvTree p} (h : t.All c.fit) (s : Text) :
    c.pattern.Rewrites c.format t.text s (c.pass t) := by
  induction t generalizing s with
  | nil =>
    intro b
    simp [EnvTree.text, pass]
  | leaf x more ih =>
    have happend := (c.leaf x (more.text ++ s)).append (ih h s)
    simpa [EnvTree.text, pass] using happend
  | env e body more ihbody ihmore =>
    obtain ⟨hfit, hbody, hmore⟩ := h
    have hfirst : c.pattern.Rewrites c.format (e.tagged body.text) (more.text ++ s)
        (c.passWith (c.pass body) e body) := by
      rw [passWith]
      split
      · rename_i hready
        exact c.taken hfit hready _
      · rename_i hready
        exact c.left hfit hbody (Bool.eq_false_iff.2 hready) (ihbody hbody) _
    rw [EnvTree.text, pass]
    exact hfirst.append (ihmore hmore s)

theorem exists_pass_run {t : EnvTree p} (h : t.All c.fit) {d : Draft} (hd : d.Tidy) :
    ∃ t' d', (c.pass t).run d = (t'.text, d') ∧ c.Clears t t' ∧ d'.Tidy := by
  induction t generalizing d with
  | nil => exact ⟨.nil, d, rfl, .nil, hd⟩
  | leaf x more ih =>
    obtain ⟨more', d', hrun, hclears, hd'⟩ := ih h hd
    refine ⟨.leaf x more', d', ?_, .leaf x hclears, hd'⟩
    simp only [pass, StateT.run_map, hrun]
    rfl
  | env e body more ihbody ihmore =>
    obtain ⟨hfit, hbody, hmore⟩ := h
    cases hready : c.ready e body with
    | true =>
      obtain ⟨u, mid, hfirst, hplain, hmid⟩ := c.tidy hfit hready hd
      obtain ⟨more', d', hlater, hclears, hd'⟩ := ihmore hmore hmid
      refine ⟨.chars u hplain more', d', ?_, .taken hready hplain hclears, hd'⟩
      rw [pass, passWith, hready, if_pos rfl, Drafting.run_bind, hfirst, Drafting.run_bind, hlater,
        EnvTree.text_chars]
      rfl
    | false =>
      obtain ⟨body', mid, hfirst, hwithin, hmid⟩ := ihbody hbody hd
      obtain ⟨more', d', hlater, hclears, hd'⟩ := ihmore hmore hmid
      refine ⟨.env e body' more', d', ?_, .left hready hwithin hclears, hd'⟩
      have hmap : (e.tagged <$> c.pass body : Drafting Text).run d = (e.tagged body'.text, mid) := by
        rw [StateT.run_map, hfirst]
        rfl
      rw [pass, passWith, hready, if_neg (by simp), Drafting.run_bind, hmap, Drafting.run_bind, hlater]
      rfl

/-- The stage leaves the source of a tree, and stores no tags. -/
theorem exists_pass {t : EnvTree p} (h : t.All c.fit) {d : Draft} (hd : d.Tidy) :
    ∃ t' d', (c.pattern.replaceM c.format t.text).run d = (t'.text, d') ∧ c.Clears t t' ∧
      d'.Tidy := by
  rw [(c.rewrites_pass h []).replaceM_eq c.consumes]
  exact c.exists_pass_run h hd

/-! ## What is left -/

section Left

variable {c} {q : EnvPlace} (hready : ∀ e body, c.ready e body = (e.place == q))

include hready

/-- A stage takes out all environments of its kind, if there are none in them. -/
theorem places_eq {t t' : EnvTree p} (h : c.Clears t t')
    (hempty : t.All fun e body => e.place = q → body.places = []) :
    t'.places = t.places.filter (· ≠ q) := by
  induction h with
  | nil => rfl
  | leaf x later ih => exact ih hempty
  | @taken _ e body more more' u ready plain later ih =>
    have hplace : e.place = q := by simpa [hready] using ready
    simp [EnvTree.places, hplace, hempty.1 hplace, ih hempty.2.2]
  | @left _ e body body' more more' ready within later ihbody ihmore =>
    have hplace : e.place ≠ q := by simpa [hready] using ready
    simp [EnvTree.places, hplace, ihbody hempty.2.1, ihmore hempty.2.2]

/-- What is left holds of each environment what holds of it without those of the stage's kind. -/
theorem all_iff {t t' : EnvTree p} (h : c.Clears t t')
    (hempty : t.All fun e body => e.place = q → body.places = [])
    {R : EnvPlace → List EnvPlace → Prop} :
    (t'.All fun e body => R e.place body.places) ↔
      t.All fun e body => e.place ≠ q → R e.place (body.places.filter (· ≠ q)) := by
  induction h with
  | nil => exact Iff.rfl
  | leaf x later ih => exact ih hempty
  | @taken _ e body more more' u ready plain later ih =>
    have hplace : e.place = q := by simpa [hready] using ready
    rw [EnvTree.all_chars, ih hempty.2.2, EnvTree.All]
    exact ⟨fun h => ⟨fun hne => absurd hplace hne,
      EnvTree.all_of_places_eq_nil (hempty.1 hplace), h⟩, fun h => h.2.2⟩
  | @left _ e body body' more more' ready within later ihbody ihmore =>
    have hplace : e.place ≠ q := by simpa [hready] using ready
    rw [EnvTree.All, EnvTree.All, ihbody hempty.2.1, ihmore hempty.2.2,
      places_eq hready within hempty.2.1]
    simp only [ne_eq, hplace, not_false_eq_true, forall_const]

end Left

/-! ## Tags that are stored -/

/-- In front of the second text, a block with a tag is stored for the first one. -/
def Stains (x s : Text) : Prop := ∀ b d,
  ∃ content ∈ ((c.pattern.replaceFrom c.format b (x ++ s)).run d).2.blocks.contents,
    ¬ Tagless content

section Stains

variable {c} {x y s : Text}

theorem Stains.append (h : c.Stains x (y ++ s)) : c.Stains (x ++ y) s := by
  intro b d
  rw [List.append_assoc]
  exact h b d

theorem stains_behind {act : Drafting Text} (hx : c.pattern.Rewrites c.format x (y ++ s) act)
    (hy : c.Stains y s) : c.Stains (x ++ y) s := by
  intro b d
  rw [List.append_assoc, hx b]
  exact hy _ (act.run d).2

/-- A block with a tag is stored for a match. -/
theorem stains_hit (hgrows : ∀ h, (c.format h).GrowsBlocks) {m r : Text} (hm : m ≠ [])
    (hx : x ++ s = m ++ r) (h : ∀ b, ∃ stop, c.pattern.at? b (m ++ r) = some stop ∧ stop.rest = r ∧
      ∀ d, ∃ content ∈ ((c.format ⟨[], m, stop⟩).run d).2.blocks.contents, ¬ Tagless content) :
    c.Stains x s := by
  intro b d
  obtain ⟨stop, hstop, hrest, hstored⟩ := h b
  obtain ⟨content, hmem, htag⟩ := hstored d
  refine ⟨content, ?_, htag⟩
  rw [hx, replaceFrom, cutFrom_hit c.consumes hm hstop hrest, replaceM_cons]
  have hlater : ∀ (hits : List Hit) (tail : Text) (d : Draft),
      d.Grows (((Cut.mk hits tail).replaceM c.format).run d).2 := by
    intro hits tail
    induction hits with
    | nil => exact fun d => .refl d
    | cons hit hits ih =>
      intro d
      rw [replaceM_cons]
      exact (hgrows hit d).trans (ih _)
  exact (hlater _ _ _).blocks.subset hmem

end Stains

/-- Where a tree is not what the stage is made for, a block with a tag is stored. -/
theorem stains (hempty : ∀ {e : Enclosure} {body : EnvTree e.place}, c.fit e body →
      c.ready e body = true → body.places = [])
    (hopening : ∀ {e : Enclosure} {body : EnvTree e.place}, c.fit e body → c.ready e body = false →
      ∀ s, c.pattern.Rewrites c.format e.opening s (pure e.opening))
    (hspoiled : ∀ {e : Enclosure} {body : EnvTree e.place}, ¬ c.fit e body → ∀ s,
      c.Stains (e.tagged body.text) s)
    {t : EnvTree p} (h : ¬ t.All c.fit) (s : Text) : c.Stains t.text s := by
  induction t generalizing s with
  | nil => exact absurd trivial h
  | leaf x more ih => exact stains_behind (c.leaf x _) (ih h s)
  | env e body more ihbody ihmore =>
    by_cases hfit : c.fit e body
    · by_cases hbody : body.All c.fit
      · have hmore : ¬ more.All c.fit := fun hmore => h ⟨hfit, hbody, hmore⟩
        have hone : (EnvTree.env e body .nil : EnvTree p).text = e.tagged body.text := by
          simp [EnvTree.text]
        have hrewrites := c.rewrites_pass (t := (.env e body .nil : EnvTree p)) ⟨hfit, hbody, trivial⟩
          (more.text ++ s)
        rw [hone] at hrewrites
        exact stains_behind hrewrites (ihmore hmore s)
      · have hready : c.ready e body = false := by
          refine Bool.eq_false_iff.2 fun hready => hbody ?_
          exact EnvTree.all_of_places_eq_nil (hempty hfit hready)
        refine Stains.append ?_
        exact stains_behind (hopening hfit hready _) (Stains.append (ihbody hbody _))
    · exact Stains.append (hspoiled hfit _)

end Clearing

end LatexPreview
