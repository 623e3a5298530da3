import Mathlib
import LatexPreview.Convert.Draft
import LatexPreview.Proofs.Placeholder.Seal
import LatexPreview.Proofs.Placeholder.Token

/-!
# Scripts

During a conversion a text is a row of characters and tokens.  A script is such a row in
which the tokens are kept apart, so that they can be counted; reading it as a text loses
the boundaries, which this file finds again.

* `Script.text` reads a script, `Script.tokens` are its tokens, `Script.plain` has a low line
  for each token
* `text_eq_append_cons`: where a character of the text stands in the script
* `split_part`: a part of the text between characters of no token is a script of its own
* `trim_text`: cutting blanks off the ends cuts no token
-/

namespace LatexPreview

/-! ## Tokens and scripts -/

/-- The tables that tokens belong to. -/
inductive TokenKind where
  | math
  | block
  deriving DecidableEq

/-- The name in the tokens of a table. -/
def TokenKind.name : TokenKind → Text
  | math => Draft.mathName
  | block => Draft.blockName

/-- A token. -/
structure Token where
  kind : TokenKind
  number : Nat
  deriving DecidableEq

/-- A token as it stands in a text. -/
def Token.text (t : Token) : Text := placeholder t.kind.name t.number

/-- A character or a token. -/
inductive Glyph where
  | char (c : Char)
  | token (t : Token)
  deriving DecidableEq

namespace Glyph

/-- A glyph as it stands in a text. -/
def text : Glyph → Text
  | char c => [c]
  | token t => t.text

/-- The character itself; a low line for a token. -/
def plain : Glyph → Char
  | char c => c
  | token _ => '_'

/-- The token, if the glyph is one. -/
def token? : Glyph → Option Token
  | char _ => none
  | token t => some t

end Glyph

/-- A row of characters and tokens. -/
abbrev Script := List Glyph

namespace Script

/-- The text of a script. -/
def text (g : Script) : Text := g.flatMap Glyph.text

/-- The script with a low line for each token. -/
def plain (g : Script) : Text := g.map Glyph.plain

/-- The tokens of a script. -/
def tokens (g : Script) : List Token := g.filterMap Glyph.token?

/-- A text without tokens. -/
def ofText (s : Text) : Script := s.map .char

@[simp] theorem text_nil : text [] = [] := rfl

@[simp] theorem text_append (g h : Script) : text (g ++ h) = text g ++ text h := by
  simp [text]

@[simp] theorem text_char (c : Char) (g : Script) : text (.char c :: g) = c :: text g := rfl

@[simp] theorem text_token (t : Token) (g : Script) : text (.token t :: g) = t.text ++ text g := rfl

@[simp] theorem text_ofText (s : Text) : text (ofText s) = s := by
  induction s with
  | nil => rfl
  | cons c s ih => exact congrArg (c :: ·) ih

theorem text_flatten (gs : List Script) : text gs.flatten = (gs.map text).flatten := by
  induction gs with
  | nil => rfl
  | cons g gs ih => simp [ih]

@[simp] theorem plain_nil : plain [] = [] := rfl

@[simp] theorem plain_append (g h : Script) : plain (g ++ h) = plain g ++ plain h := by
  simp [plain]

@[simp] theorem plain_char (c : Char) (g : Script) : plain (.char c :: g) = c :: plain g := rfl

@[simp] theorem plain_token (t : Token) (g : Script) : plain (.token t :: g) = '_' :: plain g := rfl

@[simp] theorem plain_ofText (s : Text) : plain (ofText s) = s := by
  induction s with
  | nil => rfl
  | cons c s ih => exact congrArg (c :: ·) ih

@[simp] theorem tokens_nil : tokens [] = [] := rfl

@[simp] theorem tokens_append (g h : Script) : tokens (g ++ h) = tokens g ++ tokens h := by
  simp [tokens]

@[simp] theorem tokens_char (c : Char) (g : Script) : tokens (.char c :: g) = tokens g := rfl

@[simp] theorem tokens_token (t : Token) (g : Script) : tokens (.token t :: g) = t :: tokens g := rfl

@[simp] theorem tokens_ofText (s : Text) : tokens (ofText s) = [] := by
  induction s with
  | nil => rfl
  | cons c s ih => exact ih

end Script

/-! ## Boundaries -/

/-- The characters of tokens. -/
def TokenChar (c : Char) : Prop := c = '_' ∨ c ∈ ['M', 'T', 'H', 'B', 'L', 'K'] ∨ c.isDigit = true

instance (c : Char) : Decidable (TokenChar c) := inferInstanceAs (Decidable (_ ∨ _ ∨ _))

theorem Token.tokenChar_of_mem {t : Token} {c : Char} (h : c ∈ t.text) : TokenChar c := by
  rcases mem_placeholder h with h | h | h
  · exact .inl h
  · refine .inr (.inl ?_)
    cases hk : t.kind <;> simp [hk, TokenKind.name, Draft.mathName, Draft.blockName] at h ⊢ <;> tauto
  · exact .inr (.inr h)

theorem Token.text_eq (t : Token) :
    t.text = "__".toList ++ t.kind.name ++ '_' :: Text.ofNat t.number ++ "__".toList := rfl

theorem Token.text_injective : Function.Injective Token.text := by
  intro s t h
  obtain ⟨k, m⟩ := s
  obtain ⟨l, n⟩ := t
  obtain rfl : k = l := by
    cases k <;> cases l <;>
      simp [Token.text, placeholder, TokenKind.name, Draft.mathName, Draft.blockName] at h ⊢
  rw [show m = n from placeholder_injective _ h]

/-- Every character of a script's text is a glyph of its own or stands in a token. -/
theorem text_eq_append_cons {g : Script} {a b : Text} {c : Char}
    (h : Script.text g = a ++ c :: b) :
    (∃ ga gb, g = ga ++ .char c :: gb ∧ Script.text ga = a ∧ Script.text gb = b) ∨
    ∃ ga t gb u v, g = ga ++ .token t :: gb ∧ t.text = u ++ c :: v ∧ a = Script.text ga ++ u ∧
      b = v ++ Script.text gb := by
  obtain ⟨ga, x, gb, u, v, rfl, hx, rfl, rfl⟩ := flatMap_eq_append_cons h
  cases x with
  | char e =>
    rcases List.append_eq_singleton_iff.1 hx.symm with ⟨rfl, he⟩ | ⟨-, he⟩
    · obtain ⟨rfl, rfl⟩ := List.cons.inj he
      exact .inl ⟨ga, gb, rfl, by simp [Script.text], rfl⟩
    · exact absurd he (by simp)
  | token t => exact .inr ⟨ga, t, gb, u, v, rfl, hx, rfl, rfl⟩

namespace Script

theorem split_at {g : Script} {a b : Text} {c : Char} (hc : ¬ TokenChar c)
    (h : text g = a ++ c :: b) : ∃ ga gb, g = ga ++ .char c :: gb ∧ text ga = a ∧ text gb = b := by
  rcases text_eq_append_cons h with hchar | ⟨-, t, -, u, v, -, ht, -, -⟩
  · exact hchar
  · exact absurd (t.tokenChar_of_mem (by simp [ht])) hc

/-- A part of the text that starts and ends with characters of no token is a script of its own. -/
theorem split_part {g : Script} {front part rest : Text} (h : text g = front ++ part ++ rest)
    {c e : Char} {x y : Text} (hfirst : part = c :: x) (hc : ¬ TokenChar c)
    (hlast : part = y ++ [e]) (he : ¬ TokenChar e) :
    ∃ gf gm gr, g = gf ++ gm ++ gr ∧ text gf = front ∧ text gm = part ∧ text gr = rest ∧
      (∃ m, gm = .char c :: m) ∧ ∃ m, gm = m ++ [.char e] := by
  have hfront : text g = front ++ c :: (x ++ rest) := by simp [h, hfirst]
  obtain ⟨gf, g', rfl, hgf, hg'⟩ := split_at hc hfront
  have hpart : text (.char c :: g') = y ++ e :: rest := by
    rw [text_char, hg', ← List.cons_append, ← hfirst, hlast]
    simp
  obtain ⟨gy, gr, hsplit, hgy, hgr⟩ := split_at he hpart
  refine ⟨gf, gy ++ [.char e], gr, by simp [hsplit], hgf, by simp [hgy, hlast], hgr, ?_, gy, rfl⟩
  cases gy with
  | nil =>
    obtain ⟨hce, -⟩ := List.cons.inj hsplit
    exact ⟨[], by rw [hce]; rfl⟩
  | cons z gy =>
    obtain ⟨rfl, -⟩ := List.cons.inj hsplit
    exact ⟨gy ++ [.char e], rfl⟩

/-- A script whose text has no low line has no tokens. -/
theorem tokens_eq_nil {g : Script} (h : '_' ∉ text g) : tokens g = [] := by
  induction g with
  | nil => rfl
  | cons x g ih =>
    cases x with
    | char c => exact ih fun hmem => h (List.mem_cons_of_mem _ hmem)
    | token t => exact absurd (by simp [t.text_eq]) h

theorem tokens_sublist {g h : Script} (hgh : g.Sublist h) : (tokens g).Sublist (tokens h) :=
  hgh.filterMap _

theorem plain_isInfix {g h : Script} (hgh : g <:+: h) : plain g <:+: plain h := by
  obtain ⟨a, b, rfl⟩ := hgh
  exact ⟨plain a, plain b, by simp⟩

/-! ## Blanks at the ends -/

theorem not_tokenChar_of_isBlank {c : Char} (h : isBlank c = true) : ¬ TokenChar c := by
  rintro (rfl | hc | hc)
  · exact absurd h (by decide)
  · have hno : ∀ c ∈ ['M', 'T', 'H', 'B', 'L', 'K'], isBlank c = false := by simp [isBlank]
    rw [hno c hc] at h
    exact absurd h (by simp)
  · simp only [Char.isDigit, Bool.and_eq_true, decide_eq_true_eq, UInt32.le_iff_toNat_le] at hc
    simp only [isBlank, Char.toNat] at h
    simp at h hc
    omega

theorem trimStart_text (g : Script) :
    ∃ g', g' <:+ g ∧ text g' = (text g).trimStart ∧ tokens g' = tokens g := by
  induction g with
  | nil => exact ⟨[], List.suffix_refl _, rfl, rfl⟩
  | cons x g ih =>
    cases x with
    | char c =>
      by_cases hc : isBlank c = true
      · obtain ⟨g', hg', htext, htokens⟩ := ih
        exact ⟨g', hg'.trans (List.suffix_cons _ _), by simp [Text.trimStart, hc, htext], htokens⟩
      · exact ⟨_, List.suffix_refl _, by simp [Text.trimStart, hc], rfl⟩
    | token t =>
      refine ⟨_, List.suffix_refl _, ?_, rfl⟩
      have hlow : isBlank '_' = false := by decide
      simp [Text.trimStart, t.text_eq, hlow]

theorem trimEnd_append {u s : Text} (hu : ∀ c ∈ u, isBlank c = false) :
    Text.trimEnd (u ++ s) = u ++ Text.trimEnd s := by
  induction u with
  | nil => rfl
  | cons c u ih =>
    have htail := ih fun d hd => hu d (by simp [hd])
    have hc := hu c (by simp)
    rw [List.cons_append, Text.trimEnd, htail]
    cases hs : u ++ Text.trimEnd s with
    | nil => simp [hc, hs]
    | cons d r => simp [hs]

theorem trimEnd_text (g : Script) :
    ∃ g', g' <+: g ∧ text g' = (text g).trimEnd ∧ tokens g' = tokens g := by
  induction g with
  | nil => exact ⟨[], List.prefix_refl _, rfl, rfl⟩
  | cons x g ih =>
    obtain ⟨g', hg', htext, htokens⟩ := ih
    cases x with
    | char c =>
      by_cases hblank : isBlank c = true ∧ (text g).trimEnd = []
      · have hnone : tokens g = [] := by
          rw [← htokens]
          exact tokens_eq_nil (by simp [htext, hblank.2])
        exact ⟨[], List.nil_prefix, by simp [Text.trimEnd, hblank], by simp [hnone]⟩
      · refine ⟨.char c :: g', List.cons_prefix_cons.2 ⟨rfl, hg'⟩, ?_, htokens⟩
        rw [text_char, text_char, htext, Text.trimEnd]
        cases hs : (text g).trimEnd with
        | nil => simp_all
        | cons d r => rfl
    | token t =>
      refine ⟨.token t :: g', List.cons_prefix_cons.2 ⟨rfl, hg'⟩, ?_, by simp [htokens]⟩
      rw [text_token, text_token, htext, trimEnd_append]
      intro c hc
      by_contra hblank
      exact not_tokenChar_of_isBlank (by simpa using hblank) (t.tokenChar_of_mem hc)

/-- Cutting blanks off the ends cuts no token. -/
theorem trim_text (g : Script) :
    ∃ g', g' <:+: g ∧ text g' = (text g).trim ∧ tokens g' = tokens g := by
  obtain ⟨g₁, h₁, ht₁, htok₁⟩ := trimStart_text g
  obtain ⟨g₂, h₂, ht₂, htok₂⟩ := trimEnd_text g₁
  exact ⟨g₂, h₂.isInfix.trans h₁.isInfix, by rw [ht₂, ht₁]; rfl, htok₂.trans htok₁⟩

end Script

end LatexPreview
