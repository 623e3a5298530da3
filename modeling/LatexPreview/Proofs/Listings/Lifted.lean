import Mathlib
import LatexPreview.Proofs.Listings.Weight

/-!
# Listings without their math

When the math of a listing has been lifted, a listing is left with tokens in its code.  As long as no
math is displayed and none holds other math, these tokens stand for all of it, and putting it back
gives the code again.

* `Retained`: the token of stored math stands in the text, in other math or in a block
* `exists_script_of_unfolds`: a text that unfolds without blocks is a script, and restoring it unfolds it
* `exists_liftedCode`: what is left of a listing, as a script
-/

namespace LatexPreview

open Pattern Script Text

/-! ## Where tokens stand -/

/-- The token of all stored math stands in the text, in other math or in a block. -/
structure Retained (d : Draft) (s : Text) : Prop where
  mathName : d.math.name = Draft.mathName
  stands : ∀ n < d.math.size, ∃ place ∈ s :: (d.math.contents ++ d.blocks.contents),
    placeholder Draft.mathName n <:+: place

section Retained

variable {d : Draft} {w front source rest : Text}

/-- A word without delimiters stands within a span or outside of it. -/
theorem DelimitedSpan.infix_around (hsource : DelimitedSpan source) (hw : w ≠ [])
    (hnone : ∀ c ∈ mathDelimiters, c ∉ w) (h : w <:+: front ++ source ++ rest) :
    w <:+: front ∨ w <:+: source ∨ w <:+: rest := by
  obtain ⟨⟨c, hc, x, hfirst⟩, e, he, y, hlast⟩ := hsource
  rw [List.append_assoc, hfirst, List.cons_append, infix_append_cons hw (hnone c hc)] at h
  refine h.imp_right fun hi => ?_
  have hbehind : w <:+: y ++ e :: rest := by
    have hsame : y ++ e :: rest = c :: (x ++ rest) := by
      rw [← List.cons_append, ← hfirst, hlast]
      simp
    rw [hsame]
    exact hi.trans (List.suffix_cons c _).isInfix
  rw [infix_append_cons hw (hnone e he)] at hbehind
  refine hbehind.imp_left fun hi => ?_
  rw [hlast]
  exact hi.trans (List.prefix_append _ _).isInfix

theorem delimiter_not_mem_token (n : Nat) : ∀ c ∈ mathDelimiters, c ∉ placeholder Draft.mathName n :=
  fun _ hc hmem => not_tokenChar_of_mem_mathDelimiters hc (Token.tokenChar_of_mem (t := ⟨.math, n⟩) hmem)

theorem Retained.liftSpan (h : Retained d (front ++ source ++ rest)) (place : MathPlace)
    (hsource : DelimitedSpan source) : Retained ((LatexPreview.liftSpan place source).run d).2
      (front ++ ((LatexPreview.liftSpan place source).run d).1 ++ rest) := by
  have hmath := liftSpan_math place source d
  obtain ⟨hmaths, hblocks⟩ := liftSpan_extends place source d
  refine ⟨by rw [hmath, h.mathName], fun n hn => ?_⟩
  have hsource' : source ∈ ((LatexPreview.liftSpan place source).run d).2.math.contents := by
    rw [hmath]
    simp
  rw [hmath, PlaceholderTable.size, List.length_append, List.length_singleton] at hn
  rcases Nat.lt_succ_iff_lt_or_eq.1 hn with hold | rfl
  · obtain ⟨x, hx, hi⟩ := h.stands n hold
    simp only [List.mem_cons, List.mem_append] at hx ⊢
    rcases hx with rfl | hx | hx
    · have hne : placeholder Draft.mathName n ≠ [] := by simp [placeholder]
      rcases hsource.infix_around hne (delimiter_not_mem_token n) hi with hi | hi | hi
      · exact ⟨_, .inl rfl, hi.trans ⟨[], _, by rw [List.nil_append, ← List.append_assoc]⟩⟩
      · exact ⟨source, .inr (.inl hsource'), hi⟩
      · exact ⟨_, .inl rfl, hi.trans (List.suffix_append _ _).isInfix⟩
    · exact ⟨x, .inr (.inl (hmaths.subset hx)), hi⟩
    · exact ⟨x, .inr (.inr (hblocks.subset hx)), hi⟩
  · have hnew : placeholder d.math.name d.math.size = placeholder Draft.mathName d.math.contents.length := by
      rw [h.mathName, PlaceholderTable.size]
    simp only [List.mem_cons, List.mem_append]
    cases place with
    | inline => exact ⟨_, .inl rfl, front, rest, by rw [← hnew]; rfl⟩
    | block =>
      refine ⟨_, .inr (.inr ?_), List.infix_refl _⟩
      have hadded : ((LatexPreview.liftSpan .block source).run d).2.blocks.contents =
          d.blocks.contents ++ [placeholder d.math.name d.math.size] := rfl
      rw [hadded, hnew]
      simp

end Retained

/-- What is left of a text when its math has been lifted. -/
@[irreducible]
def lifted (s : Text) : Text × Draft := (liftMath s).run .fresh

section Lifted

variable {s : Text}

theorem retained_lifted (s : Text) : Retained (lifted s).2 (lifted s).1 := by
  rw [lifted]
  exact liftMath_keeps (P := Retained) (fun _ _ _ _ place hsource h => h.liftSpan place hsource)
    ⟨rfl, fun _ hn => absurd hn (Nat.not_lt_zero _)⟩

theorem lifting_lifted (s : Text) : Lifting s (lifted s).2 (lifted s).1 := by
  rw [lifted]
  exact liftMath_lifting s

theorem weighed_lifted (hs : IsListing s) : Weighed (weight s) (lifted s).2 (lifted s).1 := by
  rw [lifted]
  exact weighed_liftMath hs

theorem header_lifted (s : Text) : (lifted s).2.header = [] := by
  rw [lifted]
  exact liftMath_keeps (P := fun d _ => d.header = [])
    (fun _ _ _ _ place _ h => by cases place <;> exact h) rfl

end Lifted

/-! ## Unfolding by putting math back -/

section Unfolding

variable {d : Draft} {s w : Text}

/-- If nothing is displayed and no math holds math, then a text is unfolded by putting math back. -/
theorem exists_script_of_unfolds (hname : d.math.name = Draft.mathName) (hblocks : d.blocks.contents = [])
    (hsources : ∀ source ∈ d.math.contents, ¬ Draft.mathName <:+: source) (h : d.Unfolds s w) :
    ∃ g, text g = s ∧ restored d.math.entries g = w ∧ ∀ t ∈ tokens g, t.kind = .math := by
  induction h with
  | nil => exact ⟨[], rfl, rfl, by simp⟩
  | char c _ ih =>
    obtain ⟨g, rfl, rfl, hg⟩ := ih
    exact ⟨.char c :: g, rfl, rfl, hg⟩
  | @token _ source _ _ _ held inner _ _ ih =>
    obtain ⟨g, rfl, rfl, hg⟩ := ih
    have hnone : ∀ {t source}, d.Holds t source → Draft.mathName <:+: t := by
      intro t source held
      cases held with
      | @inline k _ hk => exact ⟨"__".toList, '_' :: Text.ofNat k ++ "__".toList, by simp [placeholder]⟩
      | block hi hk => simp [hblocks] at hi
    cases held with
    | block hi hk => simp [hblocks] at hi
    | @inline k _ hk =>
      have hplain := inner.eq_of_unheld fun t other held hi =>
        hsources _ (List.mem_of_getElem? hk) ((hnone held).trans hi)
      have hlookup : d.math.entries.lookup (Token.text ⟨.math, k⟩) = some source := by
        rw [← hk, ← d.math.lookup_entries, hname]
        rfl
      refine ⟨.token ⟨.math, k⟩ :: g, rfl, ?_, by simpa using hg⟩
      rw [hplain, restored, List.flatMap_cons, Glyph.restored, if_pos rfl, hlookup]
      rfl

end Unfolding

/-! ## Scripts of listings -/

section Listings

variable {g : Script} {code w : Text}

/-- A text without characters of tokens is read in one way only. -/
theorem eq_ofText_of_text (hw : ∀ c ∈ w, ¬ TokenChar c) (h : text g = w) : g = ofText w := by
  obtain ⟨g', rfl, hg'⟩ := text_eq_append (m := []) hw (by simpa using h)
  cases g' with
  | nil => simp
  | cons x g' =>
    cases x with
    | char c => exact absurd hg' (by simp)
    | token t => exact absurd hg' (by simp [t.text_eq])

theorem not_tokenChar_of_mem_tag (hw : w = listingFront ∨ w = listingBack) {c : Char} (hc : c ∈ w) :
    ¬ TokenChar c := by
  have hall : ((listingFront ++ listingBack).all fun c => decide (¬ TokenChar c)) = true := by decide
  have hboth : ∀ c ∈ listingFront ++ listingBack, ¬ TokenChar c := fun c hc =>
    of_decide_eq_true (List.all_eq_true.1 hall c hc)
  rcases hw with rfl | rfl
  · exact hboth c (List.mem_append_left _ hc)
  · exact hboth c (List.mem_append_right _ hc)

/-- The tags of a listing hold no tokens. -/
theorem exists_script_of_listing (h : text g = listing code) :
    ∃ gc, g = ofText listingFront ++ gc ++ ofText listingBack ∧ text gc = code := by
  obtain ⟨g', rfl, hg'⟩ := text_eq_append (fun _ hc => not_tokenChar_of_mem_tag (.inl rfl) hc) h
  have hback : listingBack = '\\' :: listingBack.tail := rfl
  rw [hback] at hg'
  obtain ⟨gc, gb, rfl, hgc, hgb⟩ := split_at (by decide) hg'
  have htail : gb = ofText listingBack.tail :=
    eq_ofText_of_text (fun _ hc => not_tokenChar_of_mem_tag (.inr rfl) (List.mem_of_mem_tail hc)) hgb
  refine ⟨gc, ?_, hgc⟩
  rw [List.append_assoc, hback, htail]
  rfl

/-- A word of characters that are in no tag stands in a listing if it stands in its code. -/
theorem infix_listing (hw : w ≠ []) (htags : ∀ c ∈ w, c ∉ listingFront ∧ c ∉ listingBack) :
    w <:+: listing code ↔ w <:+: code := by
  have hnil : ¬ w <:+: [] := fun h => hw (List.infix_nil.1 h)
  have hsplit : listing code = [] ++ (listingFront ++ (code ++ (listingBack ++ []))) := by simp [listing]
  rw [hsplit, infix_around hw (by decide) fun c hc => (htags c hc).1, or_iff_right hnil,
    infix_around hw (by decide) fun c hc => (htags c hc).2, or_iff_left hnil]

/-- What is left of a listing: its code as a script, the tokens of which stand for all math. -/
structure LiftedCode (code : Text) (g : Script) : Prop where
  text : (lifted (listing code)).1 = listing (Script.text g)
  back : ¬ listingBack <:+: Script.text g
  restored : Script.restored (lifted (listing code)).2.math.entries g = code
  names : ∀ kind : TokenKind, ¬ kind.name <:+: plain g
  math : ∀ t ∈ tokens g, t.kind = .math
  all : ∀ n < (lifted (listing code)).2.math.size, (⟨.math, n⟩ : Token) ∈ tokens g

/-- As long as nothing is displayed and no math holds math, a listing is left whose tokens stand for all
math. -/
theorem exists_liftedCode (hback : ¬ listingBack <:+: code)
    (hname : ∀ kind : TokenKind, ¬ kind.name <:+: code)
    (hblocks : (lifted (listing code)).2.blocks.contents = [])
    (hsources : ∀ source ∈ (lifted (listing code)).2.math.contents, ¬ Draft.mathName <:+: source) :
    ∃ g, LiftedCode code g := by
  have hlifting := lifting_lifted (listing code)
  obtain ⟨rest, hrest, hrestback⟩ := (weighed_lifted ⟨code, rfl, hback⟩).isListing
  obtain ⟨g, htext, hrestored, hmath⟩ :=
    exists_script_of_unfolds hlifting.mathName hblocks hsources hlifting.text
  obtain ⟨gc, rfl, rfl⟩ := exists_script_of_listing (htext.trans hrest)
  have hcode : restored (lifted (listing code)).2.math.entries gc = code :=
    listing_injective (by simpa [listing] using hrestored)
  have hplain : ∀ kind : TokenKind, ¬ kind.name <:+: plain gc := fun kind hi => by
    have hlow : '_' ∉ kind.name := by cases kind <;> decide
    exact hname kind (hcode ▸ infix_restored_of_plain hlow hi)
  refine ⟨gc, hrest, hrestback, hcode, hplain, fun t ht => hmath t (by simp [ht]), fun n hn => ?_⟩
  obtain ⟨place, hplace, hi⟩ := (retained_lifted (listing code)).stands n hn
  have hnone : place ∉ (lifted (listing code)).2.math.contents := fun hmem =>
    hsources place hmem (List.IsInfix.trans ⟨"__".toList, '_' :: Text.ofNat n ++ "__".toList,
      by simp [placeholder]⟩ hi)
  rw [hblocks, List.append_nil, List.mem_cons, or_iff_left hnone, hrest] at hplace
  rw [hplace] at hi
  have hne : Token.text ⟨.math, n⟩ ≠ [] := by simp [Token.text_eq]
  refine mem_tokens_of_isInfix (hplain .math) ((infix_listing hne fun c hc => ?_).1 hi)
  have htoken : TokenChar c := Token.tokenChar_of_mem hc
  exact ⟨fun hmem => not_tokenChar_of_mem_tag (.inl rfl) hmem htoken,
    fun hmem => not_tokenChar_of_mem_tag (.inr rfl) hmem htoken⟩

end Listings

end LatexPreview
