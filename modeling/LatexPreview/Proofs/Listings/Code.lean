import Mathlib
import LatexPreview.Convert.Listings
import LatexPreview.Proofs.Placeholder.PutBack
import LatexPreview.Proofs.Placeholder.Render

/-!
# Code as it is shown

Code is shown in two elements, with the characters of tags escaped.  Nothing else happens to it, and
it makes no difference whether math is put back in the code or in what shows it, as long as this
math has no characters of tags.

* `Unmarked.infix_element`: where a word may stand in an element
* `countP_codeBlock`: what an element of code has of some characters
* `not_name_codeBlock`: no name of a token arises when code is escaped
* `codeScript` is the script of shown code, and `restored_codeScript` puts math back in it
-/

namespace LatexPreview

open Text Script

/-! ## Words in elements -/

/-- The characters of tags around names and values. -/
def tagChars : List Char := ['<', '>', '/', ' ', '=', '"']

/-- A word without the characters of tags. -/
structure Unmarked (w : Text) : Prop where
  ne_nil : w ≠ []
  not_mem : ∀ c ∈ tagChars, c ∉ w

theorem unmarked_name (kind : TokenKind) : Unmarked kind.name := by
  cases kind <;> exact ⟨by decide, by simp [tagChars, TokenKind.name, Draft.mathName, Draft.blockName]⟩

section Element

variable {w x content : Text} {tag : String} {attributes : List (String × Text)} {kind : TokenKind}

/-- A word among attributes stands in a name or in a value. -/
theorem Unmarked.infix_attributes (hw : Unmarked w)
    (h : w <:+: x ++ attributes.flatMap fun (name, value) => Html.attr name value) :
    w <:+: x ∨ ∃ a ∈ attributes, w <:+: a.1.toList ∨ w <:+: a.2 := by
  induction attributes generalizing x with
  | nil => exact .inl (by simpa using h)
  | cons a attributes ih =>
    have hsplit : x ++ ((a :: attributes).flatMap fun (name, value) => Html.attr name value) =
        x ++ ' ' :: (a.1.toList ++ '=' :: ([] ++ '"' :: (a.2 ++ '"' ::
          ([] ++ attributes.flatMap fun (name, value) => Html.attr name value)))) := by
      simp [Html.attr]
    have hnil : ¬ w <:+: [] := fun hi => hw.ne_nil (List.infix_nil.1 hi)
    rw [hsplit, infix_append_cons hw.ne_nil (hw.not_mem ' ' (by decide)),
      infix_append_cons hw.ne_nil (hw.not_mem '=' (by decide)),
      infix_append_cons hw.ne_nil (hw.not_mem '"' (by decide)),
      infix_append_cons hw.ne_nil (hw.not_mem '"' (by decide))] at h
    rcases h with hx | hname | hnone | hvalue | hlater
    · exact .inl hx
    · exact .inr ⟨a, by simp, .inl hname⟩
    · exact absurd hnone hnil
    · exact .inr ⟨a, by simp, .inr hvalue⟩
    · obtain ⟨b, hb, hin⟩ := (ih hlater).resolve_left hnil
      exact .inr ⟨b, by simp [hb], hin⟩

/-- A word in an element stands in its tag, its attributes or its content. -/
theorem Unmarked.infix_element (hw : Unmarked w) (h : w <:+: Html.element tag attributes content) :
    w <:+: tag.toList ∨ (∃ a ∈ attributes, w <:+: a.1.toList ∨ w <:+: a.2) ∨ w <:+: content := by
  have hsplit : Html.element tag attributes content = [] ++ '<' :: ((tag.toList ++
      attributes.flatMap fun (name, value) => Html.attr name value) ++ '>' ::
        (content ++ '<' :: ([] ++ '/' :: (tag.toList ++ '>' :: [])))) := by
    simp [Html.element]
  have hnil : ¬ w <:+: [] := fun hi => hw.ne_nil (List.infix_nil.1 hi)
  rw [hsplit, infix_append_cons hw.ne_nil (hw.not_mem '<' (by decide)),
    infix_append_cons hw.ne_nil (hw.not_mem '>' (by decide)),
    infix_append_cons hw.ne_nil (hw.not_mem '<' (by decide)),
    infix_append_cons hw.ne_nil (hw.not_mem '/' (by decide)),
    infix_append_cons hw.ne_nil (hw.not_mem '>' (by decide))] at h
  rcases h with hnone | hfront | hcontent | hnone | htag | hnone
  · exact absurd hnone hnil
  · exact (hw.infix_attributes hfront).imp_right .inl
  · exact .inr (.inr hcontent)
  · exact absurd hnone hnil
  · exact .inl htag
  · exact absurd hnone hnil

end Element

/-! ## Code -/

/-- Code with the characters of tags escaped. -/
def escapeCode (code : Text) : Text :=
  (code.replaceChar '<' "&lt;".toList).replaceChar '>' "&gt;".toList

theorem codeBlock_eq (code : Text) : codeBlock code =
    Html.styled "pre" Style.listing (Html.styled "code" Style.listingCode (escapeCode code)) := rfl

section Code

variable {q : Char → Bool} {old : Char} {new s code : Text} {kind : TokenKind}

theorem countP_codeBlock (q : Char → Bool) (code : Text) :
    (codeBlock code).countP q = (codeBlock []).countP q + (escapeCode code).countP q := by
  have hnil : (escapeCode []).countP q = 0 := rfl
  simp only [codeBlock_eq, Html.styled, Html.element, List.countP_append, List.countP_cons, hnil]
  omega

/-- The characters of tags are escaped. -/
theorem not_mem_escapeCode : '<' ∉ escapeCode code ∧ '>' ∉ escapeCode code := by
  simp [escapeCode, mem_replaceChar]

/-- No name of a token arises when code is escaped. -/
theorem not_name_codeBlock (h : ¬ kind.name <:+: code) : ¬ kind.name <:+: codeBlock code := by
  have hw := unmarked_name kind
  have hescape : ¬ kind.name <:+: escapeCode code := by
    have hends : '&' ∉ kind.name ∧ ';' ∉ kind.name ∧ ¬ kind.name <:+: ['l', 't'] ∧
        ¬ kind.name <:+: ['g', 't'] := by
      cases kind <;> decide
    obtain ⟨hamp, hend, hless, hgreater⟩ := hends
    intro hi
    exact h (infix_of_infix_replaceChar hw.ne_nil hamp hend hless
      (infix_of_infix_replaceChar hw.ne_nil hamp hend hgreater hi))
  have helement : ∀ {tag style : String} {content : Text}, ¬ kind.name <:+: tag.toList →
      ¬ kind.name <:+: style.toList → ¬ kind.name <:+: content →
      ¬ kind.name <:+: Html.styled tag style content := by
    intro tag style content htag hstyle hcontent hi
    have hattr : ¬ kind.name <:+: "style".toList := by cases kind <;> decide
    rcases hw.infix_element hi with hi | ⟨a, ha, hi⟩ | hi
    · exact htag hi
    · rw [List.mem_singleton.1 ha] at hi
      exact hi.elim hattr hstyle
    · exact hcontent hi
  rw [codeBlock_eq]
  have hstyles : ¬ kind.name <:+: Style.listing.toList ∧ ¬ kind.name <:+: Style.listingCode.toList := by
    cases kind <;> decide +kernel
  have htags : ¬ kind.name <:+: "pre".toList ∧ ¬ kind.name <:+: "code".toList := by
    cases kind <;> decide
  exact helement htags.1 hstyles.1 (helement htags.2 hstyles.2 hescape)

end Code

/-! ## Scripts of code -/

/-- The script of shown code. -/
def codeScript (g : Script) : Script :=
  elementScript "pre" [("style", Style.listing.toList)]
    (elementScript "code" [("style", Style.listingCode.toList)]
      (replaceGlyph '>' "&gt;".toList (replaceGlyph '<' "&lt;".toList g)))

section Scripts

variable {g : Script} {contents : List (Text × Text)} {old : Char} {new : Text}

theorem text_codeScript (g : Script) : text (codeScript g) = codeBlock (text g) := by
  rw [codeScript, text_elementScript, text_elementScript, text_replaceGlyph (by decide),
    text_replaceGlyph (by decide)]
  rfl

theorem tokens_codeScript (g : Script) : tokens (codeScript g) = tokens g := by
  rw [codeScript, tokens_elementScript, tokens_elementScript, tokens_replaceGlyph,
    tokens_replaceGlyph]

theorem plain_codeScript (g : Script) : plain (codeScript g) = codeBlock (plain g) := by
  rw [codeScript, plain_elementScript, plain_elementScript, plain_replaceGlyph (by decide),
    plain_replaceGlyph (by decide)]
  rfl

theorem restored_elementScript (tag : String) (attributes : List (String × Text)) (g : Script) :
    restored contents (elementScript tag attributes g) =
      Html.element tag attributes (restored contents g) := by
  simp [elementScript, elementFront, elementBack, Html.element]

theorem restored_replaceGlyph (hold : ¬ TokenChar old) (hsources : ∀ e ∈ contents, old ∉ e.2) :
    restored contents (replaceGlyph old new g) = (restored contents g).replaceChar old new := by
  induction g with
  | nil => rfl
  | cons x g ih =>
    have hcons : ∀ x g, restored contents (x :: g) = x.restored contents ++ restored contents g :=
      fun _ _ => rfl
    rw [← List.singleton_append, replaceGlyph_append, restored_append, ih, List.singleton_append, hcons,
      replaceChar_append]
    refine congrArg (· ++ _) ?_
    cases x with
    | char c =>
      by_cases hc : c = old
      · simp [replaceGlyph, hc, Glyph.restored, replaceChar]
      · simp [replaceGlyph, hc, Glyph.restored, replaceChar, restored]
    | token t =>
      have htoken : old ∉ t.text := fun hmem => hold (t.tokenChar_of_mem hmem)
      have hshown : old ∉ (Glyph.token t).restored contents := by
        rw [Glyph.restored]
        split
        · cases hlookup : contents.lookup t.text with
          | none => exact htoken
          | some source =>
            obtain ⟨before, after, hcontents, -⟩ := List.lookup_eq_some_iff.1 hlookup
            exact hsources (t.text, source) (by simp [hcontents])
        · exact htoken
      rw [replaceChar_eq_self hshown]
      simp [replaceGlyph, restored]

/-- Math without characters of tags may be put back before or after code is shown. -/
theorem restored_codeScript (hsources : ∀ e ∈ contents, '<' ∉ e.2 ∧ '>' ∉ e.2) (g : Script) :
    restored contents (codeScript g) = codeBlock (restored contents g) := by
  rw [codeScript, restored_elementScript, restored_elementScript,
    restored_replaceGlyph (by decide) fun e he => (hsources e he).2,
    restored_replaceGlyph (by decide) fun e he => (hsources e he).1]
  rfl

end Scripts

end LatexPreview
