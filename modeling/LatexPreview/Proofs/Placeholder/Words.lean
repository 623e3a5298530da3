import Mathlib
import LatexPreview.Html.Element
import LatexPreview.Proofs.Placeholder.Rounds
import LatexPreview.Proofs.Text.Words

/-!
# Words in resolved texts

A word that has none of the characters of tokens and of angle brackets cannot come about by
putting contents back, as long as these are elements, and it cannot get lost.

* `Enclosed`: a text in angle brackets
* `Puts.infix_iff`, `Resolves.infix_iff`: a pass, and the loop
* `infix_resolve_iff`: a word in a resolved text is one of the text or of a content
-/

namespace LatexPreview

open Pattern Text

/-! ## Angle brackets -/

/-- The text stands in angle brackets, as elements do. -/
def Enclosed (x : Text) : Prop := ∃ s, x = '<' :: (s ++ ['>'])

theorem Enclosed.append {x y : Text} (hx : Enclosed x) (hy : Enclosed y) : Enclosed (x ++ y) := by
  obtain ⟨s, rfl⟩ := hx
  obtain ⟨t, rfl⟩ := hy
  exact ⟨s ++ '>' :: '<' :: t, by simp⟩

section Elements

variable {tag style : String} {attributes : List (String × Text)} {content : Text}

/-- An element has two tags, with the content between them. -/
theorem element_eq (tag : String) (attributes : List (String × Text)) (content : Text) :
    Html.element tag attributes content =
      ('<' :: (tag.toList ++ attributes.flatMap (Function.uncurry Html.attr))) ++
        '>' :: (content ++ '<' :: ('/' :: tag.toList ++ ['>'])) := by
  have hattributes : Html.element tag attributes content =
      '<' :: tag.toList ++ attributes.flatMap (Function.uncurry Html.attr)
        ++ '>' :: content ++ "</".toList ++ tag.toList ++ ['>'] := rfl
  simp [hattributes]

theorem enclosed_element : Enclosed (Html.element tag attributes content) :=
  ⟨tag.toList ++ attributes.flatMap (Function.uncurry Html.attr) ++
    '>' :: (content ++ '<' :: '/' :: tag.toList), by simp [element_eq]⟩

theorem enclosed_styled : Enclosed (Html.styled tag style content) := enclosed_element

end Elements

/-- The characters at which texts are joined when contents are put back. -/
def JoinChar (name : Text) (c : Char) : Prop :=
  c = '<' ∨ c = '>' ∨ c = '_' ∨ c ∈ name ∨ c.isDigit = true

/-- The word is not empty, and texts are joined at none of its characters. -/
structure Unjoined (name w : Text) : Prop where
  nonempty : w ≠ []
  chars : ∀ c ∈ w, ¬ JoinChar name c

section Word

variable {name w x y z : Text} (hw : Unjoined name w)

include hw

/-- The word does not reach over an element. -/
theorem Unjoined.infix_enclosed (hy : Enclosed y) :
    w <:+: x ++ (y ++ z) ↔ w <:+: x ∨ w <:+: y ∨ w <:+: z := by
  have hbracket : ∀ {b : Char} {u v : Text}, b = '<' ∨ b = '>' →
      (w <:+: u ++ ([b] ++ v) ↔ w <:+: u ∨ w <:+: v) := by
    intro b u v hb
    refine infix_around hw.nonempty (by simp) fun c hc hmem => hw.chars c hc ?_
    obtain rfl := List.mem_singleton.1 hmem
    rcases hb with rfl | rfl
    · exact .inl rfl
    · exact .inr (.inl rfl)
  obtain ⟨s, rfl⟩ := hy
  have hwhole : x ++ ('<' :: (s ++ ['>']) ++ z) = x ++ (['<'] ++ (s ++ (['>'] ++ z))) := by simp
  have halone : '<' :: (s ++ ['>']) = [] ++ (['<'] ++ (s ++ (['>'] ++ []))) := by simp
  have hnil : ¬ w <:+: [] := fun h => hw.nonempty (List.infix_nil.1 h)
  rw [hwhole, halone, hbracket (.inl rfl), hbracket (.inr rfl), hbracket (.inl rfl),
    hbracket (.inr rfl)]
  tauto

/-- The word does not reach over what looks like a token. -/
theorem Unjoined.infix_token (hne : y ≠ [])
    (hy : ∀ c ∈ y, c = '_' ∨ c ∈ name ∨ c.isDigit = true) :
    w <:+: x ++ (y ++ z) ↔ w <:+: x ∨ w <:+: z :=
  infix_around hw.nonempty hne fun c hc hmem => hw.chars c hc (.inr (.inr (hy c hmem)))

end Word

/-! ## Passes -/

namespace PlaceholderTable

variable {t : PlaceholderTable} {used log : List Nat} {hits : List Hit} {w s tail out : Text}

/-- The word occurs in a content with one of some numbers. -/
def HoldsWord (t : PlaceholderTable) (w : Text) (log : List Nat) : Prop :=
  ∃ n ∈ log, ∃ content, t.contents[n]? = some content ∧ w <:+: content

theorem holdsWord_cons {n : Nat} {content : Text} (h : t.contents[n]? = some content) :
    t.HoldsWord w (n :: log) ↔ w <:+: content ∨ t.HoldsWord w log := by
  simp [HoldsWord, h]

theorem holdsWord_append {more : List Nat} :
    t.HoldsWord w (log ++ more) ↔ t.HoldsWord w log ∨ t.HoldsWord w more := by
  simp [HoldsWord, or_and_right, exists_or]

theorem Puts.infix_iff (hw : Unjoined t.name w) (hc : ∀ c ∈ t.contents, Enclosed c)
    (hcuts : (placeholderPattern t.name).CutsInto s hits tail) (h : t.Puts used hits tail log out) :
    w <:+: out ↔ w <:+: s ∨ t.HoldsWord w log := by
  induction hcuts generalizing used log out with
  | tail s =>
    cases h
    simp [HoldsWord]
  | @hit hit hits tail found later ih =>
    have hne : hit.matched ≠ [] := by
      obtain ⟨ds, -, -, hmatched⟩ := found_placeholder found
      simp [hmatched]
    have htoken := fun z => hw.infix_token (x := hit.gap) (z := z) hne fun c hc => mem_matched found hc
    cases h with
    | kept known rest =>
      rw [List.append_assoc, List.append_assoc, htoken, htoken, ih rest]
      tauto
    | put matched fresh stored rest =>
      rw [List.append_assoc, List.append_assoc, htoken, holdsWord_cons stored,
        hw.infix_enclosed (hc _ (List.mem_of_getElem? stored)), ih rest]
      tauto

theorem Pass.infix_iff (hw : Unjoined t.name w) (hc : ∀ c ∈ t.contents, Enclosed c)
    (h : t.Pass used s log out) : w <:+: out ↔ w <:+: s ∨ t.HoldsWord w log :=
  Puts.infix_iff hw hc (cut_cutsInto _ s) h

/-- The tokens that are added to a text do not matter. -/
theorem infix_lost (hw : Unjoined t.name w) :
    w <:+: s ++ (t.unused used).flatten ↔ w <:+: s := by
  have htokens : ∀ c ∈ (t.unused used).flatten, c = '_' ∨ c ∈ t.name ∨ c.isDigit = true := by
    intro c hc
    obtain ⟨token, htoken, hmem⟩ := List.mem_flatten.1 hc
    obtain ⟨n, -, rfl⟩ := List.mem_map.1 htoken
    exact mem_placeholder hmem
  have hnil : ¬ w <:+: [] := fun h => hw.nonempty (List.infix_nil.1 h)
  by_cases hne : (t.unused used).flatten = []
  · rw [hne, List.append_nil]
  · have haround := hw.infix_token (x := s) (z := []) hne htokens
    rwa [List.append_nil, or_iff_left hnil] at haround

theorem Resolves.infix_iff (hw : Unjoined t.name w) (hc : ∀ c ∈ t.contents, Enclosed c)
    (h : t.Resolves used s log out) : w <:+: out ↔ w <:+: s ∨ t.HoldsWord w log := by
  induction h with
  | finished pass all => exact pass.infix_iff hw hc
  | lost pass some later ih =>
    have hsame := pass.infix_iff hw hc
    rw [ih, infix_lost hw, holdsWord_append]
    tauto
  | changed pass change later ih =>
    rw [ih, pass.infix_iff hw hc, holdsWord_append, or_assoc]

/-- A word in the resolved text is one of the text itself or of a content, and all of these are
there. -/
theorem infix_resolve_iff (hname : TokenName t.name) (hw : Unjoined t.name w)
    (hc : ∀ c ∈ t.contents, Enclosed c) (s : Text) :
    w <:+: t.resolve s ↔ w <:+: s ∨ ∃ content ∈ t.contents, w <:+: content := by
  obtain ⟨log, hresolves, hperm⟩ := t.exists_resolves hname s
  rw [hresolves.infix_iff hw hc]
  refine or_congr_right ⟨?_, ?_⟩
  · rintro ⟨n, -, content, hstored, hword⟩
    exact ⟨content, List.mem_of_getElem? hstored, hword⟩
  · rintro ⟨content, hmem, hword⟩
    obtain ⟨n, hn⟩ := List.mem_iff_getElem?.1 hmem
    obtain ⟨hlt, -⟩ := List.getElem?_eq_some_iff.1 hn
    exact ⟨n, hperm.mem_iff.2 (List.mem_range.2 hlt), content, hn, hword⟩

end PlaceholderTable

end LatexPreview
