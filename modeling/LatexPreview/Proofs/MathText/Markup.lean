import Mathlib
import LatexPreview.Convert.Document
import LatexPreview.MathText.Restore
import LatexPreview.Proofs.Placeholder.Token

/-!
# Restored math and the markup around it

Math is put back after a page has been cleaned, so nothing checks what it does to the page.
Its source is escaped for text between tags: it can open and close no tag, wherever its
token stands.  Quotation marks are left as they are, and one of them ends an attribute value
if the token stands there, as it may in the tip of a footnote or the address of a link.

* `HtmlPlace` is where a reader of HTML stands, `marksFrom` is what changes that
* `mathTokens` are the tokens of a page, each with the text in front of it
* `shownMath` is what a token is replaced by
* `restoreMath_markup`: math whose quotation marks all stand between tags keeps the markup
* `restored_math_in_values`: what holds of every converted document
-/

namespace LatexPreview

open Pattern

/-! ## Reading HTML -/

/-- Where a reader of HTML stands. -/
inductive HtmlPlace where
  /-- Between tags. -/
  | content
  /-- In a tag, in front of or behind an attribute value. -/
  | tag
  /-- In an attribute value in double quotes. -/
  | value
  deriving DecidableEq

namespace HtmlPlace

/-- The place behind one more character. -/
def after : HtmlPlace → Char → HtmlPlace
  | content, c => if c = '<' then tag else content
  | tag, c => if c = '>' then content else if c = '"' then value else tag
  | value, c => if c = '"' then tag else value

/-- The place behind a text, if reading starts at a place. -/
def behind (p : HtmlPlace) (s : Text) : HtmlPlace := s.foldl after p

/-- The characters of a text at which the place changes. -/
def marksFrom : HtmlPlace → Text → Text
  | _, [] => []
  | p, c :: s => if p.after c = p then marksFrom p s else c :: marksFrom (p.after c) s

/-- A text that leaves the place as it is. -/
def Inert (p : HtmlPlace) (s : Text) : Prop := ∀ c ∈ s, p.after c = p

theorem behind_append (p : HtmlPlace) (s t : Text) :
    p.behind (s ++ t) = (p.behind s).behind t := List.foldl_append

theorem marksFrom_append (p : HtmlPlace) (s t : Text) :
    p.marksFrom (s ++ t) = p.marksFrom s ++ (p.behind s).marksFrom t := by
  induction s generalizing p with
  | nil => rfl
  | cons c s ih =>
    by_cases hc : p.after c = p
    · simp [marksFrom, behind, hc, ih]
    · simp [marksFrom, behind, hc, ih]

theorem Inert.behind_eq {p : HtmlPlace} {s : Text} (h : p.Inert s) : p.behind s = p := by
  induction s with
  | nil => rfl
  | cons c s ih =>
    rw [behind, List.foldl_cons, h c (by simp)]
    exact ih fun d hd => h d (by simp [hd])

theorem Inert.marksFrom_eq {p : HtmlPlace} {s : Text} (h : p.Inert s) : p.marksFrom s = [] := by
  induction s with
  | nil => rfl
  | cons c s ih =>
    rw [marksFrom, if_pos (h c (by simp))]
    exact ih fun d hd => h d (by simp [hd])

/-- Text without angle brackets does nothing between tags, and without quotation marks it does
nothing within them. -/
theorem inert_of_no_markup {p : HtmlPlace} {s : Text} (hopen : '<' ∉ s) (hclose : '>' ∉ s)
    (hquote : p ≠ content → '"' ∉ s) : p.Inert s := by
  intro c hc
  have ho : c ≠ '<' := by rintro rfl; exact hopen hc
  have hcl : c ≠ '>' := by rintro rfl; exact hclose hc
  cases p with
  | content => simp [after, ho]
  | tag | value =>
    have hq : c ≠ '"' := by rintro rfl; exact hquote (by simp) hc
    simp [after, hcl, hq]

end HtmlPlace

/-- The place behind the front of a page. -/
def placeBehind (front : Text) : HtmlPlace := HtmlPlace.content.behind front

/-- The markup of a page: what opens and closes its tags and attribute values. -/
def markup (html : Text) : Text := HtmlPlace.content.marksFrom html

/-! ## Tokens in a page -/

/-- The matches of a cut, each with all the text in front of it. -/
def Cut.fronts : Text → List Hit → List (Text × Hit)
  | _, [] => []
  | front, h :: more => (front ++ h.gap, h) :: fronts (front ++ h.gap ++ h.matched) more

/-- The tokens for math in a page, each with the text in front of it. -/
def mathTokens (html : Text) : List (Text × Hit) :=
  Cut.fronts [] ((placeholderPattern Draft.mathName).cut html).hits

/-- What a token is replaced by when math is put back. -/
def shownMath (typeset : Typesetter) (mode : MathMode) (math : List (Text × Text))
    (h : Hit) : Text :=
  ((math.map fun (token, source) => (token, (mathHtml typeset mode source).1)).lookup
    h.matched).getD h.matched

/-- The source behind a token; a token without one stands for itself. -/
def mathSource (math : List (Text × Text)) (h : Hit) : Text :=
  (math.lookup h.matched).getD h.matched

theorem restoreMath_html (typeset : Typesetter) (mode : MathMode) (math : List (Text × Text))
    (html : Text) :
    (restoreMath typeset mode math html).1 =
      (placeholderPattern Draft.mathName).replace (shownMath typeset mode math) html := by
  simp only [restoreMath, restoreTokens, List.map_map, Function.comp_def]
  rfl

theorem lookup_map_snd (math : List (Text × Text)) (f : Text → Text) (token : Text) :
    (math.map fun (token, source) => (token, f source)).lookup token =
      (math.lookup token).map f := by
  induction math with
  | nil => rfl
  | cons entry math ih =>
    obtain ⟨key, source⟩ := entry
    by_cases hk : token = key
    · simp [hk, List.lookup]
    · have hb : (token == key) = false := by simpa using hk
      simp [List.lookup, hb, ih]

/-- Escaped text has no angle brackets, but all its quotation marks. -/
theorem mem_escapeText (s : Text) :
    '<' ∉ Html.escapeText s ∧ '>' ∉ Html.escapeText s ∧ ('"' ∈ Html.escapeText s ↔ '"' ∈ s) := by
  have h : ∀ c, '<' ∉ Html.escapeTextChar c ∧ '>' ∉ Html.escapeTextChar c ∧
      ('"' ∈ Html.escapeTextChar c ↔ '"' = c) := by
    intro c
    unfold Html.escapeTextChar
    split <;> simp_all [eq_comm]
  simp only [Html.escapeText, List.mem_flatMap, not_exists, not_and]
  refine ⟨fun c _ => (h c).1, fun c _ => (h c).2.1, ?_⟩
  constructor
  · rintro ⟨c, hc, hq⟩
    rwa [(h c).2.2.1 hq]
  · exact fun hq => ⟨'"', hq, (h '"').2.2.2 rfl⟩

/-- A token is replaced by text without angle brackets, which has a quotation mark if and only
if the source has one. -/
theorem mem_shownMath (typeset : Typesetter) {mode : MathMode} (hmode : mode ≠ .mathml)
    (math : List (Text × Text)) {h : Hit}
    (hf : (placeholderPattern Draft.mathName).Found h) :
    '<' ∉ shownMath typeset mode math h ∧ '>' ∉ shownMath typeset mode math h ∧
      ('"' ∈ shownMath typeset mode math h ↔ '"' ∈ mathSource math h) := by
  have hshown : ∀ source, (mathHtml typeset mode source).1 = Html.escapeText source := by
    intro source
    cases mode with
    | mathml => exact absurd rfl hmode
    | mathjax | raw => rfl
  have htoken : ∀ c ∈ ['<', '>'], c ∉ h.matched := by
    intro c hc hmem
    have := mem_matched hf hmem
    simp only [List.mem_cons, List.not_mem_nil, or_false] at hc
    rcases hc with rfl | rfl <;> revert this <;> simp [Draft.mathName]
  simp only [shownMath, mathSource, hshown, lookup_map_snd]
  cases math.lookup h.matched with
  | none => exact ⟨htoken '<' (by simp), htoken '>' (by simp), Iff.rfl⟩
  | some source => exact mem_escapeText source

/-! ## Pages -/

/-- If neither the matches nor what replaces them changes the place where they stand, then
replacing them leaves the markup as it is. -/
theorem CutsInto.marksFrom_replace {p : Pattern} {f : Hit → Text} {s : Text} {hits : List Hit}
    {tail : Text} (hc : p.CutsInto s hits tail) (front : Text)
    (hinert : ∀ x ∈ Cut.fronts front hits,
      (placeBehind x.1).Inert x.2.matched ∧ (placeBehind x.1).Inert (f x.2)) :
    (placeBehind front).marksFrom ((Cut.mk hits tail).replace f) =
      (placeBehind front).marksFrom s := by
  induction hc generalizing front with
  | tail s => rfl
  | @hit h hits tail _ _ ih =>
    obtain ⟨hmatched, hnew⟩ := hinert (front ++ h.gap, h) (by simp [Cut.fronts])
    have hlater := ih (front ++ h.gap ++ h.matched)
      fun x hx => hinert x (List.mem_cons_of_mem _ hx)
    have hplace : placeBehind (front ++ h.gap) = (placeBehind front).behind h.gap :=
      HtmlPlace.behind_append _ _ _
    have hplace' : placeBehind (front ++ h.gap ++ h.matched) = placeBehind (front ++ h.gap) := by
      rw [placeBehind, HtmlPlace.behind_append]
      exact hmatched.behind_eq
    rw [hplace'] at hlater
    have hreplace : (Cut.mk (h :: hits) tail).replace f =
        h.gap ++ (f h ++ (Cut.mk hits tail).replace f) := by simp [Cut.replace]
    rw [hreplace, List.append_assoc, HtmlPlace.marksFrom_append, HtmlPlace.marksFrom_append,
      HtmlPlace.marksFrom_append (s := h.gap), HtmlPlace.marksFrom_append (s := h.matched),
      ← hplace, hnew.marksFrom_eq, hnew.behind_eq, hmatched.marksFrom_eq, hmatched.behind_eq, hlater]

theorem found_of_mem_mathTokens {html : Text} {x : Text × Hit} (hx : x ∈ mathTokens html) :
    (placeholderPattern Draft.mathName).Found x.2 := by
  have hfound : ∀ {s hits tail}, (placeholderPattern Draft.mathName).CutsInto s hits tail →
      ∀ front, ∀ x ∈ Cut.fronts front hits, (placeholderPattern Draft.mathName).Found x.2 := by
    intro s hits tail hc
    induction hc with
    | tail s => simp [Cut.fronts]
    | @hit h hits tail hf _ ih =>
      intro front x hx
      rcases List.mem_cons.1 hx with rfl | hx
      · exact hf
      · exact ih _ x hx
  exact hfound (cut_cutsInto _ html) [] x hx

/-- If all sources with quotation marks stand between tags, then putting the math back leaves
the markup as it is. -/
theorem restoreMath_markup (typeset : Typesetter) {mode : MathMode} (hmode : mode ≠ .mathml)
    (math : List (Text × Text)) (html : Text)
    (hquote : ∀ x ∈ mathTokens html, placeBehind x.1 ≠ .content → '"' ∉ mathSource math x.2) :
    markup (restoreMath typeset mode math html).1 = markup html := by
  rw [restoreMath_html]
  refine CutsInto.marksFrom_replace (cut_cutsInto _ html) [] ?_
  intro x hx
  have hf := found_of_mem_mathTokens hx
  obtain ⟨hopen, hclose, hsource⟩ := mem_shownMath typeset hmode math hf
  have htoken : ∀ c ∈ ['<', '>', '"'], c ∉ x.2.matched := by
    intro c hc hmem
    have := mem_matched hf hmem
    simp only [List.mem_cons, List.not_mem_nil, or_false] at hc
    rcases hc with rfl | rfl | rfl <;> revert this <;> simp [Draft.mathName]
  exact ⟨HtmlPlace.inert_of_no_markup (htoken _ (by simp)) (htoken _ (by simp))
      fun _ => htoken _ (by simp),
    HtmlPlace.inert_of_no_markup hopen hclose fun hp => hsource.not.2 (hquote x hx hp)⟩

/-- In every converted document, math is put back without angle brackets.  It is put back without
quotation marks into all attribute values if and only if no source of math that has quotation
marks has its token there; and if none has it within a tag at all, the markup is kept. -/
theorem restored_math_in_values (typeset : Typesetter) {mode : MathMode}
    (hmode : mode ≠ .mathml) (latex : Text) :
    let page := convert latex
    (∀ x ∈ mathTokens page.html, '<' ∉ shownMath typeset mode page.math x.2 ∧
      '>' ∉ shownMath typeset mode page.math x.2) ∧
    ((∀ x ∈ mathTokens page.html, placeBehind x.1 = .value →
        '"' ∉ shownMath typeset mode page.math x.2) ↔
      ∀ x ∈ mathTokens page.html, placeBehind x.1 = .value → '"' ∉ mathSource page.math x.2) ∧
    ((∀ x ∈ mathTokens page.html, placeBehind x.1 ≠ .content →
        '"' ∉ mathSource page.math x.2) →
      markup (restoreMath typeset mode page.math page.html).1 = markup page.html) := by
  intro page
  have hshown : ∀ x ∈ mathTokens page.html, _ := fun x hx =>
    mem_shownMath typeset hmode page.math (found_of_mem_mathTokens hx)
  refine ⟨fun x hx => ⟨(hshown x hx).1, (hshown x hx).2.1⟩, ?_,
    restoreMath_markup typeset hmode page.math page.html⟩
  constructor
  · exact fun h x hx hp => (hshown x hx).2.2.not.1 (h x hx hp)
  · exact fun h x hx hp => (hshown x hx).2.2.not.2 (h x hx hp)

theorem restored_math_in_values_quiet :
    MathMode.raw ≠ .mathml ∧
      let page := convert "\\footnote\x7b$a<b$\x7d".toList
      markup (restoreMath (fun _ _ => .error []) .raw page.math page.html).1 =
        markup page.html := by
  have hraw : MathMode.raw ≠ .mathml := by decide
  exact ⟨hraw, (restored_math_in_values (fun _ _ => .error []) hraw _).2.2 (by decide +kernel)⟩

/-- The tip of a footnote is an attribute value, and a quotation mark in its math ends it: what
follows is read as an attribute of its own. -/
theorem footnote_math_ends_tip :
    ¬ ∀ mode : MathMode, mode ≠ .mathml → ∀ latex : Text,
      ∀ x ∈ mathTokens (convert latex).html, placeBehind x.1 = .value →
        '"' ∉ shownMath (fun _ _ => .error []) mode (convert latex).math x.2 := by
  intro h
  have htip := h .mathjax (by decide) "\\footnote\x7b$a\" onclick=\"b$\x7d".toList
  exact absurd htip (by decide +kernel)

end LatexPreview
