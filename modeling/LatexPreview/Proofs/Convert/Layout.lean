import Mathlib
import LatexPreview.Proofs.Placeholder.Render
import LatexPreview.Proofs.Placeholder.Resolve

/-!
# The layout of a conversion

Between two stages, what a conversion works on is a text, a header and a row of blocks, all
of them scripts.  The invariant of the stages is that these scripts are sealed, that no
watched token stands in two places, and that a block mentions only blocks stored before it.

* `Layout` is what a conversion works on; `Layout.Shows` relates it to a text and a draft
* `Layout.Sound` is the invariant, `Kept` that some layout shows it
* `Sound.once_of_change`, `Sound.known_of_change`: what a change must not do to the tokens
* `Replaced` is what may become of one match, `Kept.replaceM` that it may become of all
-/

namespace LatexPreview

open Script Pattern

/-! ## Layouts -/

/-- What a conversion works on. -/
structure Layout where
  text : Script
  header : Script
  blocks : List Script
  /-- The number of math sources that have been stored. -/
  maths : Nat

namespace Layout

/-- All tokens, wherever they stand. -/
def everything (l : Layout) : List Token :=
  tokens l.text ++ tokens l.header ++ tokens l.blocks.flatten

/-- Has the content of the token been stored? -/
def Knows (l : Layout) (t : Token) : Prop :=
  match t.kind with
  | .math => t.number < l.maths
  | .block => t.number < l.blocks.length

/-- A draft and a text that look like the layout. -/
structure Shows (l : Layout) (d : Draft) (s : Text) : Prop where
  text : s = Script.text l.text
  header : d.header = Script.text l.header
  blocks : d.blocks = blockTable l.blocks
  mathName : d.math.name = Draft.mathName
  maths : d.math.size = l.maths

end Layout

/-- The tokens that are watched: those of all blocks, and the wanted ones for math. -/
def Watched (wanted : Nat → Prop) (t : Token) : Prop := t.kind = .math → wanted t.number

/-- The scripts are sealed, watched tokens stand in one place, and blocks mention earlier ones. -/
structure Layout.Sound (wanted : Nat → Prop) (l : Layout) : Prop where
  textSealed : Sealed (plain l.text)
  headerSealed : Sealed (plain l.header)
  headerCapped : l.header = [] ∨ Capped (plain l.header)
  shelf : Shelf l.blocks
  once : ∀ t, Watched wanted t → l.everything.count t ≤ 1
  known : ∀ t ∈ l.everything, l.Knows t

/-- The draft and the text show a sound layout, and blocks stand on lines of their own. -/
def Kept (wanted : Nat → Prop) (d : Draft) (s : Text) : Prop :=
  ∃ l : Layout, l.Shows d s ∧ l.Sound wanted ∧ Padded l.text

variable {wanted : Nat → Prop}

/-- Tokens for contents that are stored by a change from one layout to another. -/
structure Layout.Fresh (l l' : Layout) (fresh : List Token) : Prop where
  nodup : fresh.Nodup
  unknown : ∀ t ∈ fresh, ¬ l.Knows t
  known : ∀ t ∈ fresh, l'.Knows t

/-- If every token of a changed layout was there before or is fresh, then watched tokens still
stand in one place. -/
theorem Layout.Sound.once_of_change {l l' : Layout} (h : l.Sound wanted) {fresh : List Token}
    (hfresh : l.Fresh l' fresh)
    (hwithin : Within (Watched wanted) l'.everything (fresh ++ l.everything)) :
    ∀ t, Watched wanted t → l'.everything.count t ≤ 1 := by
  intro t ht
  have hle := hwithin.count_le t ht
  rw [List.count_append] at hle
  by_cases hmem : t ∈ fresh
  · have hold : l.everything.count t = 0 :=
      List.count_eq_zero.2 fun hin => hfresh.unknown t hmem (h.known t hin)
    have hnew := List.nodup_iff_count_le_one.1 hfresh.nodup t
    omega
  · have hnew := List.count_eq_zero.2 hmem
    have hold := h.once t ht
    omega

theorem Layout.Sound.known_of_change {l l' : Layout} (h : l.Sound wanted) {fresh : List Token}
    (hfresh : l.Fresh l' fresh) (hmono : ∀ t, l.Knows t → l'.Knows t)
    (hwithin : Within (Watched wanted) l'.everything (fresh ++ l.everything)) :
    ∀ t ∈ l'.everything, l'.Knows t := by
  intro t ht
  rcases List.mem_append.1 (hwithin.subset ht) with hmem | hmem
  · exact hfresh.known t hmem
  · exact hmono t (h.known t hmem)

/-- New blocks fit behind old ones if they mention only these. -/
theorem Shelf.append {cs bs : List Script} (hcs : Shelf cs)
    (hbs : ∀ b ∈ bs, Fits b)
    (hold : ∀ n, blockToken n ∈ tokens bs.flatten → n < cs.length) : Shelf (cs ++ bs) := by
  have hsplit : ∀ n, (n < cs.length ∧ contentAt (cs ++ bs) n = contentAt cs n) ∨
      (cs.length ≤ n ∧ contentAt (cs ++ bs) n = contentAt bs (n - cs.length)) := by
    intro n
    rcases Nat.lt_or_ge n cs.length with hn | hn
    · exact .inl ⟨hn, by simp [contentAt, List.getElem?_append_left hn]⟩
    · exact .inr ⟨hn, by simp [contentAt, List.getElem?_append_right hn]⟩
  have hmem : ∀ n < bs.length, contentAt bs n ∈ bs := by
    intro n hn
    simp [contentAt, hn]
  refine ⟨fun n hn => ?_, fun n hn => ?_, fun n m hm => ?_⟩
  · rw [List.length_append] at hn
    rcases hsplit n with ⟨hlt, heq⟩ | ⟨hle, heq⟩
    · exact heq ▸ hcs.isSealed n hlt
    · exact heq ▸ (hbs _ (hmem _ (by omega))).1
  · rw [List.length_append] at hn
    rcases hsplit n with ⟨hlt, heq⟩ | ⟨hle, heq⟩
    · exact heq ▸ hcs.capped n hlt
    · exact heq ▸ (hbs _ (hmem _ (by omega))).2
  · rcases hsplit n with ⟨hlt, heq⟩ | ⟨hle, heq⟩
    · exact hcs.earlier n m (heq ▸ hm)
    · rw [heq] at hm
      refine (hold m ?_).trans_le hle
      rcases Nat.lt_or_ge (n - cs.length) bs.length with hn | hn
      · exact (tokens_sublist (List.sublist_flatten_of_mem (hmem _ hn))).subset hm
      · rw [contentAt_of_le hn] at hm
        exact absurd hm (by simp)

/-- Two steps, the second one on what the first one leaves. -/
theorem Drafting.run_bind {α β : Type} (m : Drafting α) (f : α → Drafting β) (d : Draft) :
    (m >>= f).run d = (f (m.run d).1).run (m.run d).2 := rfl

/-! ## Replacing a match -/

/-- Is the token's content stored between two drafts? -/
def StoredBetween (d e : Draft) (t : Token) : Prop :=
  match t.kind with
  | .math => d.math.size ≤ t.number ∧ t.number < e.math.size
  | .block => d.blocks.size ≤ t.number ∧ t.number < e.blocks.size

/-- What may become of a match: a script in its place and new blocks, which have its tokens and
fresh ones. -/
structure Replaced (wanted : Nat → Prop) (source : List Token) (d : Draft) (result : Text × Draft)
    (new : Script) (bs : List Script) (fresh : List Token) : Prop where
  text : result.1 = Script.text new
  header : result.2.header = d.header
  blocks : result.2.blocks = ⟨d.blocks.name, d.blocks.contents ++ bs.map Script.text⟩
  mathName : result.2.math.name = d.math.name
  maths : d.math.size ≤ result.2.math.size
  newSealed : Sealed (plain new)
  newCapped : Capped (plain new)
  newPadded : Padded new
  fits : ∀ b ∈ bs, Fits b
  mentions : ∀ n, blockToken n ∈ tokens bs.flatten → blockToken n ∈ source
  within : Within (Watched wanted) (tokens new ++ tokens bs.flatten) (fresh ++ source)
  nodup : fresh.Nodup
  stored : ∀ t ∈ fresh, StoredBetween d result.2 t

/-- The step does that to a match on all drafts. -/
def Yields (wanted : Nat → Prop) (source : List Token) (m : Drafting Text) : Prop :=
  ∀ d : Draft, d.math.name = Draft.mathName → d.blocks.name = Draft.blockName →
    ∃ new bs fresh, Replaced wanted source d (m.run d) new bs fresh

/-- A step that stores nothing, and leaves a script with tokens of the match. -/
theorem yields_script {source : List Token} {m : Drafting Text}
    (h : ∀ d : Draft, ∃ new footnotes, m.run d = (Script.text new, { d with footnotes }) ∧
      Fits new ∧ Padded new ∧ Within (Watched wanted) (tokens new) source) :
    Yields wanted source m := by
  intro d _ _
  obtain ⟨new, footnotes, hrun, ⟨hsealed, hcapped⟩, hpadded, hwithin⟩ := h d
  refine ⟨new, [], [], ?_⟩
  exact {
    text := by rw [hrun]
    header := by rw [hrun]
    blocks := by rw [hrun]; simp
    mathName := by rw [hrun]
    maths := by rw [hrun]
    newSealed := hsealed
    newCapped := hcapped
    newPadded := hpadded
    fits := by simp
    mentions := by simp
    within := by simpa using hwithin
    nodup := by simp
    stored := by simp }

theorem Layout.Shows.size_blocks {l : Layout} {d : Draft} {s : Text} (h : l.Shows d s) :
    d.blocks.size = l.blocks.length := by
  rw [PlaceholderTable.size, h.blocks, blockTable, List.length_map]

/-- The layout with another text, more blocks and some number of math sources. -/
def Layout.change (l : Layout) (text : Script) (bs : List Script) (maths : Nat) : Layout :=
  ⟨text, l.header, l.blocks ++ bs, maths⟩

section Replaced

variable {l : Layout} {d : Draft} {gf gm gr new : Script} {bs : List Script} {fresh : List Token}
  {result : Text × Draft}

/-- The tokens of contents that are stored are fresh ones. -/
theorem Replaced.fresh_change (ho : Replaced wanted (tokens gm) d result new bs fresh)
    (hshows : l.Shows d (Script.text l.text)) (text : Script) :
    l.Fresh (l.change text bs result.2.math.size) fresh := by
  have hsize := hshows.size_blocks
  have hnewSize : result.2.blocks.size = l.blocks.length + bs.length := by
    rw [ho.blocks, PlaceholderTable.size, List.length_append, List.length_map]
    exact congrArg (· + bs.length) hsize
  refine ⟨ho.nodup, fun t ht => ?_, fun t ht => ?_⟩
  all_goals
    have hstored := ho.stored t ht
    simp only [StoredBetween, Layout.Knows, Layout.change] at hstored ⊢
    cases hk : t.kind with
    | math =>
      have := hshows.maths
      simp only [hk] at hstored ⊢
      omega
    | block =>
      simp only [hk, hnewSize, hsize, List.length_append] at hstored ⊢
      omega

/-- What was stored before is stored afterwards. -/
theorem Replaced.knows_change (ho : Replaced wanted (tokens gm) d result new bs fresh)
    (hshows : l.Shows d (Script.text l.text)) (text : Script) {t : Token} (ht : l.Knows t) :
    (l.change text bs result.2.math.size).Knows t := by
  have := hshows.maths
  have := ho.maths
  simp only [Layout.Knows, Layout.change, List.length_append] at ht ⊢
  cases hk : t.kind <;> simp only [hk] at ht ⊢ <;> omega

/-- All tokens were there before or are fresh. -/
theorem Replaced.within_change (ho : Replaced wanted (tokens gm) d result new bs fresh)
    (hsplit : l.text = gf ++ gm ++ gr) : Within (Watched wanted)
      (l.change (gf ++ new ++ gr) bs result.2.math.size).everything (fresh ++ l.everything) := by
  refine ⟨fun t ht => ?_, fun t ht => ?_⟩
  · have hle := ho.within.count_le t ht
    simp only [Layout.everything, Layout.change, hsplit, tokens_append, List.flatten_append,
      List.count_append] at hle ⊢
    omega
  · have hsub : t ∈ tokens new ++ tokens bs.flatten → t ∈ fresh ++ tokens gm :=
      fun h => ho.within.subset h
    simp only [Layout.everything, Layout.change, hsplit, tokens_append, List.flatten_append,
      List.mem_append] at hsub ht ⊢
    tauto

/-- The changed layout is a sound one. -/
theorem Replaced.sound_change (ho : Replaced wanted (tokens gm) d result new bs fresh)
    (hshows : l.Shows d (Script.text l.text)) (hsound : l.Sound wanted)
    (hsplit : l.text = gf ++ gm ++ gr) :
    (l.change (gf ++ new ++ gr) bs result.2.math.size).Sound wanted := by
  have htextSealed := hsound.textSealed
  rw [hsplit, plain_append, plain_append] at htextSealed
  have hfresh := ho.fresh_change hshows (gf ++ new ++ gr)
  have hwithin := ho.within_change hsplit
  refine ⟨?_, hsound.headerSealed, hsound.headerCapped, hsound.shelf.append ho.fits fun n hn => ?_,
    hsound.once_of_change hfresh hwithin,
    hsound.known_of_change hfresh (fun _ => ho.knows_change hshows _) hwithin⟩
  · rw [Layout.change, plain_append, plain_append, sealed_append_capped ho.newCapped]
    exact ⟨htextSealed.mono ⟨[], plain gm ++ plain gr, by simp⟩, ho.newSealed,
      htextSealed.mono (List.suffix_append _ _).isInfix⟩
  · have hin : blockToken n ∈ l.everything := by
      have hmem := ho.mentions n hn
      simp only [Layout.everything, hsplit, tokens_append, List.mem_append]
      tauto
    exact hsound.known _ hin

/-- Then a sound layout is kept. -/
theorem Replaced.kept {e : Char} {y : Script}
    (ho : Replaced wanted (tokens gm) d result new bs fresh)
    (hshows : l.Shows d (Script.text l.text)) (hsound : l.Sound wanted) (hpadded : Padded l.text)
    (hsplit : l.text = gf ++ gm ++ gr) (hlast : gm = y ++ [.char e]) (hline : e ≠ '\n') :
    Kept wanted result.2 (Script.text gf ++ result.1 ++ Script.text gr) := by
  refine ⟨l.change (gf ++ new ++ gr) bs result.2.math.size, ?_, ho.sound_change hshows hsound hsplit, ?_⟩
  · refine ⟨by simp [Layout.change, ho.text], ho.header.trans hshows.header, ?_,
      ho.mathName.trans hshows.mathName, rfl⟩
    rw [ho.blocks, hshows.blocks]
    simp [blockTable, Layout.change]
  · rw [hsplit, List.append_assoc] at hpadded
    refine (hpadded.left.append ho.newPadded).append ?_
    rw [hlast, ← List.append_assoc, ← List.append_assoc, List.append_assoc] at hpadded
    exact hpadded.right hline

end Replaced

/-- If that becomes of each match, then a sound layout is kept. -/
theorem Kept.replaceM {p : Pattern} {c : Char} {cs : List Char} {f : Hit → Drafting Text} {s : Text}
    (hopens : p.Opens c) (hc : Edge c) (hcloses : p.ClosesIn cs) (hcs : ∀ e ∈ cs, Edge e)
    (hf : ∀ h ∈ (p.cut s).hits, p.Found h → ∀ g, Script.text g = h.matched → Sealed (plain g) →
      Padded g → Yields wanted (tokens g) (f h))
    {d : Draft} (hkept : Kept wanted d s) :
    Kept wanted ((p.replaceM f s).run d).2 ((p.replaceM f s).run d).1 := by
  refine replaceM_keeps (P := Kept wanted) ?_ hkept
  rintro d front h hh hfound ⟨l, hshows, hsound, hpadded⟩
  obtain ⟨x, hfirst⟩ := hopens.found hfound
  obtain ⟨y, e, he, hlast⟩ := hcloses.found hfound
  obtain ⟨gf, gm, gr, hsplit, rfl, hgm, hgr, hfirst', gy, hgy⟩ :=
    split_part hshows.text.symm hfirst hc.1 hlast (hcs e he).1
  have hpart : gm <:+: l.text := ⟨gf, gr, hsplit.symm⟩
  have hpaddedPart : Padded gm := (hsplit ▸ hpadded).part hfirst' hc.2
  have hblockName : d.blocks.name = Draft.blockName := by rw [hshows.blocks]; rfl
  obtain ⟨new, bs, fresh, ho⟩ :=
    hf h hh hfound gm hgm (hsound.textSealed.mono (plain_isInfix hpart)) hpaddedPart d
      hshows.mathName hblockName
  rw [← hgr]
  refine ho.kept ?_ hsound hpadded hsplit hgy (hcs e he).2
  exact ⟨rfl, hshows.header, hshows.blocks, hshows.mathName, hshows.maths⟩

end LatexPreview
