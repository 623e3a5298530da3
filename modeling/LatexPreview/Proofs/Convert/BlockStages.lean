import Mathlib
import LatexPreview.Convert.Listings
import LatexPreview.Convert.Quotes
import LatexPreview.Convert.Sections
import LatexPreview.Proofs.Convert.Shelves

/-!
# Headings, listings and quotations

Each of these stages makes a block of the one part that a match captures.

* `kept_formatSections`, `kept_formatListings`, `kept_formatQuotes`: the stages keep sound
  layouts
-/

namespace LatexPreview

open Script Pattern

variable {wanted : Nat → Prop}

/-! ## Headings -/

/-- Making blocks of headings keeps a layout sound. -/
theorem kept_formatSections {d : Draft} {s : Text} (h : Kept wanted d s) :
    Kept wanted ((formatSections s).run d).2 ((formatSections s).run d).1 := by
  have hopens : headingPattern.Opens '\\' := (((opens_one '\\').append _).append _).append _
  have hcloses : headingPattern.ClosesIn ['}'] := (closesIn_argument "text").prepend _
  have hframes : headingPattern.Frames "text" := (frames_argument "text").prepend _
  have hlevel : ∀ level : HeadingLevel, Quiet level.tag.toList ∧ Quiet level.style.toList := by
    rintro (_ | _ | _) <;> exact ⟨by decide, by decide +kernel⟩
  refine h.replaceM hopens (by decide) hcloses (by simp [Edge, TokenChar])
    fun hit _ hf g hg hsealed _ => yields_part hframes hf hg hsealed ?_
  obtain ⟨htag, hstyle⟩ := hlevel (HeadingLevel.ofName (hit.get "level"))
  exact renders_styled htag hstyle

/-! ## Listings -/

theorem renders_codeBlock : Renders codeBlock := by
  have hpre : Renders (Html.styled "pre" Style.listing) :=
    renders_styled (by decide) (by decide +kernel)
  have hcode : Renders (Html.styled "code" Style.listingCode) :=
    renders_styled (by decide) (by decide)
  have hless : Narrows (·.replaceChar '<' "&lt;".toList) :=
    narrows_replaceChar (by decide) ⟨'&', _, rfl, by decide⟩ (by simp)
  have hgreater : Narrows (·.replaceChar '>' "&gt;".toList) :=
    narrows_replaceChar (by decide) ⟨'&', _, rfl, by decide⟩ (by simp)
  exact hpre.comp (hcode.narrows.comp (hgreater.comp hless))

theorem kept_listing {p q : Pattern} {cs : List Char} (hp : p.Opens '\\') (hcs : p.ClosesIn cs)
    (hbraces : ∀ c ∈ cs, c ∈ ['{', '}', ']']) {env : String} (hq : q = p ++ body ++ closing env)
    {d : Draft} {s : Text} (h : Kept wanted d s) :
    Kept wanted ((q.replaceM (fun h => addBlock (codeBlock (h.get "body"))) s).run d).2
      ((q.replaceM (fun h => addBlock (codeBlock (h.get "body"))) s).run d).1 := by
  subst hq
  have hframes := frames_body hcs hbraces (opens_closing env) (bare_lit _)
  exact h.replaceM ((hp.append _).append _) (by decide) ((closesIn_closing env).prepend _)
    (by simp [Edge, TokenChar]) fun hit _ hf g hg hsealed _ =>
      yields_part hframes hf hg hsealed renders_codeBlock

/-- Making blocks of listings keeps a layout sound. -/
theorem kept_formatListings {d : Draft} {s : Text} (h : Kept wanted d s) :
    Kept wanted ((formatListings s).run d).2 ((formatListings s).run d).1 := by
  refine foldlM_keeps (P := Kept wanted) (fun p hp d s hkept => ?_) h
  rcases List.mem_cons.1 hp with rfl | hp
  · exact kept_listing (opens_opening _) (closesIn_opening _) (by simp) rfl hkept
  · obtain rfl := List.mem_singleton.1 hp
    have hcloses : (opening "lstlisting" ++ optionOf any).ClosesIn ['}', ']'] :=
      ((closesIn_opening _).mono (by simp)).optional
        (((closesIn_one ']').mono (by simp)).prepend _)
    exact kept_listing ((opens_opening _).append _) hcloses (by simp) rfl hkept

/-! ## Quotations -/

theorem opens_quotePattern : quotePattern.Opens '\\' :=
  ((((((((opens_command "begin").append _).append _).append _).append _).append _).append _).append
    _).append _

/-- Making blocks of quotations keeps a layout sound. -/
theorem kept_formatQuotes {d : Draft} {s : Text} (h : Kept wanted d s) :
    Kept wanted ((formatQuotes s).run d).2 ((formatQuotes s).run d).1 := by
  have hframes : quotePattern.Frames "body" := by
    refine ((Frames.append ?_ ?_).append ?_).append ?_
    · exact frames_body ((closesIn_one '}').prepend _) (by simp) (opens_command "end") (bare_lit _)
    · exact trivial
    · exact trivial
    · exact trivial
  have hquote : Renders (Html.styled "blockquote" Style.quote) :=
    renders_styled (by decide) (by decide +kernel)
  exact h.replaceM opens_quotePattern (by decide) ((closesIn_one '}').prepend _)
    (by simp [Edge, TokenChar]) fun hit _ hf g hg hsealed _ =>
      yields_part hframes hf hg hsealed (hquote.comp narrows_trim)

end LatexPreview
