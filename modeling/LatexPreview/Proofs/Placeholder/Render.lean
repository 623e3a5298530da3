import Mathlib
import LatexPreview.Html.Element
import LatexPreview.Proofs.Placeholder.Parts

/-!
# Functions on texts that spare tokens

What the stages do to a part of a text is put together from a few functions: some take
things out of it, some divide it, some put it into an element.  Each of them spares the
tokens in a sealed script, and so do all functions that are put together from them.

* `Narrows`: what is left of a sealed script is one again
* `Divides`: a sealed script is divided into sealed ones
* `Renders`: a sealed script becomes one that may be put anywhere
* `Divides.flatMap`: parts that are rendered one after the other
* `narrows_trim`, `narrows_erase`, `divides_split`, `renders_element`, `narrows_replaceChar`: the
  functions of the stages
-/

namespace LatexPreview

open Script Pattern

/-! ## Scripts that may be put anywhere -/

/-- A script that may be put anywhere into a sealed one. -/
def Fits (g : Script) : Prop := Sealed (plain g) ∧ Capped (plain g)

theorem fits_ofText {s : Text} (hs : Quiet s) (hcapped : Capped s) : Fits (ofText s) := by
  rw [Fits, plain_ofText]
  exact ⟨hs.sealed, hcapped⟩

/-- A sealed script between two that may be put anywhere. -/
theorem Fits.between {f g b : Script} (hf : Fits f) (hg : Sealed (plain g)) (hb : Fits b) :
    Fits (f ++ g ++ b) := by
  obtain ⟨hfront, hfirst⟩ := hf
  obtain ⟨hback, hlast⟩ := hb
  have hrest : Sealed (plain g ++ plain b) := by
    have hends := (sealed_append_capped (a := plain g) (b := []) hlast).2 ⟨hg, hback, sealed_nil⟩
    simpa using hends
  have hall := (sealed_append_capped (a := []) (b := plain g ++ plain b) hfirst).2
    ⟨sealed_nil, hfront, hrest⟩
  obtain ⟨⟨c, m, hc, hneutral⟩, -⟩ := hfirst
  obtain ⟨-, n, d, hd, hneutral'⟩ := hlast
  refine ⟨by simpa using hall, ⟨c, m ++ plain g ++ plain b, by simp [hc], hneutral⟩,
    plain f ++ plain g ++ n, d, by simp [hd], hneutral'⟩

theorem Fits.append_sealed {g b : Script} (hg : Fits g) (hb : Sealed (plain b)) :
    Sealed (plain (g ++ b)) := by
  have hfit := (sealed_append_capped (a := []) (b := plain b) hg.2).2 ⟨sealed_nil, hg.1, hb⟩
  simpa using hfit

theorem Fits.append {g b : Script} (hg : Fits g) (hb : Fits b) : Fits (g ++ b) := by
  refine ⟨hg.append_sealed hb.1, ?_⟩
  rw [plain_append]
  exact hg.2.append hb.2

/-- Scripts that may be put anywhere may be put behind each other. -/
theorem sealed_flatten {gs : List Script} (h : ∀ g ∈ gs, Fits g) : Sealed (plain gs.flatten) := by
  induction gs with
  | nil => exact sealed_nil
  | cons g gs ih => exact (h g (by simp)).append_sealed (ih fun x hx => h x (by simp [hx]))

/-! ## Functions on texts -/

/-- On a sealed script, the function leaves a sealed one with no other tokens. -/
def Narrows (f : Text → Text) : Prop :=
  ∀ g, Sealed (plain g) →
    ∃ b, text b = f (text g) ∧ (tokens b).Sublist (tokens g) ∧ Sealed (plain b)

/-- The same for a function whose results may be put anywhere. -/
def Renders (f : Text → Text) : Prop :=
  ∀ g, Sealed (plain g) → ∃ b, text b = f (text g) ∧ (tokens b).Sublist (tokens g) ∧ Fits b

/-- The same for a function with several results, which share the tokens among them. -/
def Divides (f : Text → List Text) : Prop :=
  ∀ g, Sealed (plain g) → ∃ gs : List Script, gs.map text = f (text g) ∧
    (tokens gs.flatten).Sublist (tokens g) ∧ ∀ x ∈ gs, Sealed (plain x)

variable {f h : Text → Text} {k : Text → List Text}

theorem Renders.narrows (hf : Renders f) : Narrows f := by
  intro g hg
  obtain ⟨b, htext, htokens, hfits⟩ := hf g hg
  exact ⟨b, htext, htokens, hfits.1⟩

theorem Narrows.comp (hf : Narrows f) (hh : Narrows h) : Narrows fun s => f (h s) := by
  intro g hg
  obtain ⟨b, htext, htokens, hb⟩ := hh g hg
  obtain ⟨b', htext', htokens', hb'⟩ := hf b hb
  exact ⟨b', by rw [htext', htext], htokens'.trans htokens, hb'⟩

theorem Renders.comp (hf : Renders f) (hh : Narrows h) : Renders fun s => f (h s) := by
  intro g hg
  obtain ⟨b, htext, htokens, hb⟩ := hh g hg
  obtain ⟨b', htext', htokens', hb'⟩ := hf b hb
  exact ⟨b', by rw [htext', htext], htokens'.trans htokens, hb'⟩

theorem Divides.comp (hk : Divides k) (hh : Narrows h) : Divides fun s => k (h s) := by
  intro g hg
  obtain ⟨b, htext, htokens, hb⟩ := hh g hg
  obtain ⟨gs, htexts, htokens', hgs⟩ := hk b hb
  exact ⟨gs, by rw [htexts, htext], htokens'.trans htokens, hgs⟩

theorem Narrows.map (hf : Narrows f) {gs : List Script} (hgs : ∀ x ∈ gs, Sealed (plain x)) :
    ∃ bs : List Script, bs.map text = (gs.map text).map f ∧
      (tokens bs.flatten).Sublist (tokens gs.flatten) ∧ ∀ x ∈ bs, Sealed (plain x) := by
  induction gs with
  | nil => exact ⟨[], rfl, .refl _, by simp⟩
  | cons g gs ih =>
    obtain ⟨b, htext, htokens, hb⟩ := hf g (hgs g (by simp))
    obtain ⟨bs, htexts, hmore, hbs⟩ := ih fun x hx => hgs x (by simp [hx])
    refine ⟨b :: bs, by simp [htext, htexts], ?_, ?_⟩
    · simpa using htokens.append hmore
    · simpa using ⟨hb, hbs⟩

theorem Divides.map (hk : Divides k) (hf : Narrows f) : Divides fun s => (k s).map f := by
  intro g hg
  obtain ⟨gs, htexts, htokens, hgs⟩ := hk g hg
  obtain ⟨bs, htexts', htokens', hbs⟩ := hf.map hgs
  exact ⟨bs, by rw [htexts', htexts], htokens'.trans htokens, hbs⟩

theorem Divides.filter (hk : Divides k) (ok : Text → Bool) :
    Divides fun s => (k s).filter ok := by
  intro g hg
  obtain ⟨gs, htexts, htokens, hgs⟩ := hk g hg
  refine ⟨gs.filter (ok ∘ text), ?_, ?_, fun x hx => ?_⟩
  · rw [← List.filter_map, htexts]
  · exact (tokens_sublist List.filter_sublist.flatten).trans htokens
  · exact hgs x (List.mem_of_mem_filter hx)

/-- Rendered parts one after the other. -/
theorem Renders.flatMap (hf : Renders f) {gs : List Script} (hgs : ∀ x ∈ gs, Sealed (plain x)) :
    ∃ b, text b = (gs.map text).flatMap f ∧ (tokens b).Sublist (tokens gs.flatten) ∧
      Sealed (plain b) := by
  induction gs with
  | nil => exact ⟨[], rfl, .refl _, sealed_nil⟩
  | cons g gs ih =>
    obtain ⟨b, htext, htokens, hb⟩ := hf g (hgs g (by simp))
    obtain ⟨b', htexts, hmore, hb'⟩ := ih fun x hx => hgs x (by simp [hx])
    refine ⟨b ++ b', by simp [htext, htexts], ?_, hb.append_sealed hb'⟩
    simpa using htokens.append hmore

theorem Divides.flatMap (hk : Divides k) (hf : Renders f) :
    Narrows fun s => (k s).flatMap f := by
  intro g hg
  obtain ⟨gs, htexts, htokens, hgs⟩ := hk g hg
  obtain ⟨b, htext, htokens', hb⟩ := hf.flatMap hgs
  exact ⟨b, by rw [htext, htexts], htokens'.trans htokens, hb⟩

/-! ## Taking out and dividing -/

theorem narrows_trim : Narrows Text.trim := by
  intro g hg
  obtain ⟨g', hpart, htext, htokens⟩ := trim_text g
  exact ⟨g', htext, htokens ▸ .refl _, hg.mono (plain_isInfix hpart)⟩

theorem narrows_erase {p : Pattern} {cs : List Char} (hopens : p.Opens '\\')
    (hleads : p.Leads takenOut) (hcloses : p.ClosesIn cs) (hcs : ∀ e ∈ cs, Edge e) :
    Narrows p.erase := by
  intro g hg
  obtain ⟨g', htext, herased⟩ := erase_script hopens hleads hcloses hcs hg
  exact ⟨g', htext.symm, tokens_sublist herased.sublist, herased.isSealed⟩

/-- What is left behind a match at the front. -/
theorem narrows_eraseFront {p : Pattern} {cs : List Char} (hcloses : p.ClosesIn cs)
    (hcs : ∀ e ∈ cs, ¬ TokenChar e) : Narrows p.eraseFront := by
  intro g hg
  rw [eraseFront]
  split
  · rename_i stop hstop
    obtain ⟨w, e, he, hw⟩ := hcloses _ _ (matches_of_at? hstop)
    obtain ⟨gf, gr, rfl, -, hgr⟩ := split_at (hcs e he) hw
    have hpart : gr <:+: gf ++ .char e :: gr := ⟨gf ++ [.char e], [], by simp⟩
    exact ⟨gr, hgr, tokens_sublist hpart.sublist, hg.mono (plain_isInfix hpart)⟩
  · exact ⟨g, rfl, .refl _, hg⟩

theorem divides_split {p : Pattern} (hp : p.Severs) : Divides p.split := by
  intro g hg
  obtain ⟨gs, htexts, hsub, hparts⟩ := split_pieces hp hg
  exact ⟨gs, htexts.symm, tokens_sublist hsub, fun x hx => hg.mono (plain_isInfix (hparts x hx))⟩

/-- The gaps and matches of a cut text. -/
theorem divides_pieces {p : Pattern} (hp : p.Severs) :
    Divides fun s => ((p.cut s).hits.flatMap fun h => [h.gap, h.matched]) ++ [(p.cut s).tail] := by
  intro g hg
  obtain ⟨gs, htexts, rfl⟩ := (p.cut_cutsInto (text g)).pieces hp hg rfl
  exact ⟨gs, htexts.symm, .refl _, fun x hx =>
    hg.mono (plain_isInfix (List.infix_of_mem_flatten hx))⟩

/-- A text that may be put anywhere in place of each match. -/
theorem narrows_replace {p : Pattern} (hp : p.Severs) {new : Text} (hnew : Fits (ofText new)) :
    Narrows (p.replace fun _ => new) := by
  intro g hg
  have hall : ∃ b, p.replace (fun _ => new) (text g) = text b ∧ (tokens b).Sublist (tokens g) ∧
      Sealed (plain b) := by
    refine replace_keeps
      (P := fun s => ∃ b, s = text b ∧ (tokens b).Sublist (tokens g) ∧ Sealed (plain b)) ?_
      ⟨g, rfl, .refl _, hg⟩
    rintro front h hf ⟨b, htext, hsub, hsealed⟩
    obtain ⟨gf, gm, gr, rfl, rfl, -, hgr⟩ := hp b front h hsealed hf htext.symm
    refine ⟨gf ++ ofText new ++ gr, by simp [hgr], List.Sublist.trans ?_ hsub, ?_⟩
    · simp
    · rw [plain_append, plain_append, sealed_append_capped hnew.2]
      exact ⟨hsealed.mono (plain_isInfix ⟨[], gm ++ gr, by simp⟩), hnew.1,
        hsealed.mono (plain_isInfix (List.suffix_append _ _).isInfix)⟩
  obtain ⟨b, htext, hrest⟩ := hall
  exact ⟨b, htext.symm, hrest⟩

/-! ## Elements -/

/-- The tag that opens an element. -/
def elementFront (tag : String) (attributes : List (String × Text)) : Text :=
  '<' :: (tag.toList ++ attributes.flatMap fun (name, value) => Html.attr name value) ++ ['>']

/-- The tag that closes an element. -/
def elementBack (tag : String) : Text := '<' :: ('/' :: tag.toList) ++ ['>']

theorem capped_tag (s : Text) : Capped ('<' :: s ++ ['>']) :=
  ⟨⟨'<', s ++ ['>'], rfl, by decide⟩, '<' :: s, '>', rfl, by decide⟩

/-- An element around a script. -/
def elementScript (tag : String) (attributes : List (String × Text)) (g : Script) : Script :=
  ofText (elementFront tag attributes) ++ g ++ ofText (elementBack tag)

theorem text_elementScript (tag : String) (attributes : List (String × Text)) (g : Script) :
    text (elementScript tag attributes g) = Html.element tag attributes (text g) := by
  simp [elementScript, elementFront, elementBack, Html.element]

theorem plain_elementScript (tag : String) (attributes : List (String × Text)) (g : Script) :
    plain (elementScript tag attributes g) = Html.element tag attributes (plain g) := by
  simp [elementScript, elementFront, elementBack, Html.element]

theorem tokens_elementScript (tag : String) (attributes : List (String × Text)) (g : Script) :
    tokens (elementScript tag attributes g) = tokens g := by
  simp [elementScript]

section Element

variable {tag : String} {attributes : List (String × Text)}
  (hfront : Quiet (elementFront tag attributes)) (hback : Quiet (elementBack tag))

include hfront hback

theorem fits_elementScript {g : Script} (hg : Sealed (plain g)) :
    Fits (elementScript tag attributes g) :=
  (fits_ofText hfront (capped_tag _)).between hg (fits_ofText hback (capped_tag _))

theorem renders_element : Renders (Html.element tag attributes) := by
  intro g hg
  exact ⟨elementScript tag attributes g, text_elementScript _ _ g, by rw [tokens_elementScript],
    fits_elementScript hfront hback hg⟩

end Element

theorem renders_styled {tag style : String} (htag : Quiet tag.toList)
    (hstyle : Quiet style.toList) : Renders (Html.styled tag style) := by
  refine renders_element ?_ ?_
  · simp only [elementFront, Html.attr, List.flatMap_cons, List.flatMap_nil, List.append_nil,
      quiet_append, quiet_cons]
    exact ⟨⟨by simp, htag, ⟨⟨⟨by simp, by decide⟩, by decide⟩, hstyle⟩, by decide⟩, by decide⟩
  · rw [elementBack, quiet_append, quiet_cons, quiet_cons]
    exact ⟨⟨by simp, by simp, htag⟩, by decide⟩

/-! ## Escaped parts -/

/-- The script with a text in place of a character. -/
def replaceGlyph (old : Char) (new : Text) (g : Script) : Script :=
  g.flatMap fun
    | .char c => if c = old then ofText new else [.char c]
    | .token t => [.token t]

theorem replaceGlyph_append (old : Char) (new : Text) (g h : Script) :
    replaceGlyph old new (g ++ h) = replaceGlyph old new g ++ replaceGlyph old new h := by
  simp [replaceGlyph]

theorem text_replaceGlyph {old : Char} (hold : ¬ TokenChar old) (new : Text) (g : Script) :
    text (replaceGlyph old new g) = (text g).replaceChar old new := by
  induction g with
  | nil => rfl
  | cons x g ih =>
    rw [← List.singleton_append, replaceGlyph_append, text_append, text_append, ih, Text.replaceChar,
      Text.replaceChar, List.flatMap_append]
    refine congrArg (· ++ _) ?_
    cases x with
    | char c => by_cases hc : c = old <;> simp [replaceGlyph, hc]
    | token t =>
      have htoken : t.text.replaceChar old new = t.text :=
        Text.replaceChar_eq_self fun hmem => hold (t.tokenChar_of_mem hmem)
      simpa [replaceGlyph, Text.replaceChar] using htoken.symm

theorem tokens_replaceGlyph (old : Char) (new : Text) (g : Script) :
    tokens (replaceGlyph old new g) = tokens g := by
  induction g with
  | nil => rfl
  | cons x g ih =>
    rw [← List.singleton_append, replaceGlyph_append, tokens_append, tokens_append, ih]
    cases x with
    | char c => by_cases hc : c = old <;> simp [replaceGlyph, hc]
    | token t => simp [replaceGlyph]

theorem plain_replaceGlyph {old : Char} (hold : ¬ TokenChar old) (new : Text) (g : Script) :
    plain (replaceGlyph old new g) = (plain g).replaceChar old new := by
  induction g with
  | nil => rfl
  | cons x g ih =>
    rw [← List.singleton_append, replaceGlyph_append, plain_append, plain_append, ih, Text.replaceChar,
      Text.replaceChar, List.flatMap_append]
    refine congrArg (· ++ _) ?_
    cases x with
    | char c => by_cases hc : c = old <;> simp [replaceGlyph, hc]
    | token t =>
      have hlow : '_' ≠ old := by
        rintro rfl
        exact hold (.inl rfl)
      simp [replaceGlyph, hlow]

theorem narrows_replaceChar {old : Char} (hold : ¬ TokenChar old) {new : Text}
    (hfirst : ∃ n m, new = n :: m ∧ Neutral n) (hnew : ∀ c ∈ new, c ∉ ['M', 'B']) :
    Narrows (·.replaceChar old new) := by
  intro g hg
  refine ⟨replaceGlyph old new g, text_replaceGlyph hold new g, by rw [tokens_replaceGlyph], ?_⟩
  rw [plain_replaceGlyph hold]
  exact sealed_replaceChar hfirst hnew hg

end LatexPreview
