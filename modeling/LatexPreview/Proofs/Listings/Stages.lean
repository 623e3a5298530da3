import Mathlib
import LatexPreview.Proofs.Listings.Shape
import LatexPreview.Proofs.Lists.Nesting
import LatexPreview.Proofs.Source.Spans

/-!
# From a listing to a page

The stage for listings takes a listing out as a block, and what is left is the token of this block,
which the other stages pass on.

* `formatListings_listing`: the stage for listings
* `stageInput_blocks_listing`: what the last stage is given
-/

namespace LatexPreview

open Pattern Text

variable {code : Text} {d : Draft}

/-! ## The stage for listings -/

/-- A listing is found up to its closing tag. -/
theorem at?_verbatim (hback : ¬ listingBack <:+: code) (b : Option Char) :
    ∃ stop, verbatimPattern.at? b (listing code) = some stop ∧ stop.rest = [] ∧
      stop.get? "body" = some code := by
  have hspans : verbatimPattern.Spans [(listingFront, listingBack)] :=
    spans_delimited "\\begin\x7bverbatim\x7d" "\\end\x7bverbatim\x7d"
  have hclose : Text.find? listingBack (code ++ listingBack) = some (code, []) := by
    have htag : listingBack = '\\' :: listingBack.tail := rfl
    have hnot : '\\' ∉ listingBack.tail := by decide
    have havoids : Avoids listingBack code (listingBack ++ []) := by
      rw [htag, List.append_nil, avoids_append_iff hnot, ← htag]
      exact (avoids_nil_iff (by decide)).2 hback
    have hfind := find?_append havoids
    rwa [List.append_nil] at hfind
  have hrest : (verbatimPattern.at? b (listing code)).map (·.rest) = some [] := by
    rw [hspans, behindFrame, List.findSome?_singleton]
    simp only [listing, dropFront?_append, Option.bind_some, hclose, Option.map_some]
  obtain ⟨stop, hstop, hend⟩ := Option.map_eq_some_iff.1 hrest
  refine ⟨stop, hstop, hend, ?_⟩
  obtain ⟨w, hw, hslots⟩ : ∃ w, listing code = listingFront ++ (w ++ (listingBack ++ stop.rest)) ∧
      stop.slots = [("body", w ++ (listingBack ++ stop.rest), listingBack ++ stop.rest)] :=
    matches_framed (matches_of_at? hstop)
  rw [hend, List.append_nil] at hw
  obtain rfl : code = w := listing_injective hw
  exact get?_of_slots hslots

theorem opens_verbatim : verbatimPattern.Opens '\\' := ((opens_opening _).append _).append _

/-- What a stage in front of the one for paragraphs looks for is not in a single token. -/
theorem passes_hole {stage : Stage} {p : Pattern} (hp : p ∈ stage.patterns) (n : Nat) :
    p.Passes (apart (blockHole n)) := by
  have hslash : '\\' ∉ apart (blockHole n) := not_mem_apart (by decide) (not_mem_blockHole n)
  have hdollar : '$' ∉ apart (blockHole n) :=
    not_mem_apart (by decide) (not_mem_placeholder (by decide) (by decide) (by decide) n)
  rcases Stage.opens_of_mem_patterns hp with hopens | hopens
  · exact hopens.passes hslash
  · exact hopens.passes hdollar

/-- A listing becomes a block. -/
theorem formatListings_listing (hback : ¬ listingBack <:+: code)
    (hname : d.blocks.name = Draft.blockName) : (formatListings (listing code)).run d =
      (apart (blockHole d.blocks.size), { d with blocks := (d.blocks.store (codeBlock code)).2 }) := by
  obtain ⟨stop, hstop, hrest, hbody⟩ := at?_verbatim hback none
  have hne : listing code ≠ [] := by
    have hfront : listingFront ≠ [] := by decide
    simp [listing, hfront]
  have hcut : verbatimPattern.cut (listing code) = ⟨[⟨[], listing code, stop⟩], []⟩ := by
    rw [← List.append_nil (listing code)] at hstop
    have hhit := cutFrom_hit opens_verbatim.consumes hne hstop hrest
    have hnil : ∀ b, verbatimPattern.cutFrom b [] = ⟨[], []⟩ := fun b =>
      cutAtMost_nil opens_verbatim.consumes _ b
    rw [List.append_nil, hnil] at hhit
    exact hhit
  have hblock : (verbatimPattern.replaceM (fun h => addBlock (codeBlock (h.get "body")))
      (listing code)).run d =
        (apart (blockHole d.blocks.size), { d with blocks := (d.blocks.store (codeBlock code)).2 }) := by
    have hget : Hit.get ⟨[], listing code, stop⟩ "body" = code := by
      rw [Hit.get, hbody]
      rfl
    have hrun : (addBlock (codeBlock code)).run d =
        (apart (placeholder d.blocks.name d.blocks.size),
          { d with blocks := (d.blocks.store (codeBlock code)).2 }) := rfl
    have htail : ((Cut.mk [] []).replaceM fun h => addBlock (codeBlock (h.get "body"))).run
        { d with blocks := (d.blocks.store (codeBlock code)).2 } =
          ([], { d with blocks := (d.blocks.store (codeBlock code)).2 }) := rfl
    rw [Pattern.replaceM, hcut, replaceM_cons, hget, hrun]
    simp only [htail, hname, List.nil_append, List.append_nil, blockHole]
  have hlisting : listingPattern ∈ Stage.patterns .verbatim := by simp [Stage.patterns]
  have hlater := (passes_hole hlisting d.blocks.size).replaceM_run
    (f := fun h => addBlock (codeBlock (h.get "body")))
    { d with blocks := (d.blocks.store (codeBlock code)).2 }
  rw [formatListings, List.foldlM_cons, Drafting.run_bind, hblock, List.foldlM_cons,
    Drafting.run_bind, hlater]
  rfl

/-! ## The later stages -/

/-- Behind the stage for listings, only the block of the listing is left to be put back. -/
theorem stageInput_blocks_listing {latex : Text} (h : stageInput .verbatim latex = (listing code, d))
    (hback : ¬ listingBack <:+: code) (hname : d.blocks.name = Draft.blockName) :
    stageInput .blocks latex =
      (blockHole d.blocks.size, { d with blocks := (d.blocks.store (codeBlock code)).2 }) := by
  have hpasses : ∀ {stage : Stage} {p : Pattern}, p ∈ stage.patterns →
      p.Passes (apart (blockHole d.blocks.size)) := fun hp => passes_hole hp _
  have hquotes : stageInput .quotes latex = (apart (blockHole d.blocks.size),
      { d with blocks := (d.blocks.store (codeBlock code)).2 }) := by
    rw [stageInput_next .verbatim .quotes (by decide), h]
    exact formatListings_listing hback hname
  have htables : stageInput .tables latex = stageInput .quotes latex := by
    rw [stageInput_next .quotes .tables (by decide), hquotes]
    have hquote : quotePattern ∈ Stage.patterns .quotes := by simp [Stage.patterns]
    exact (hpasses hquote).replaceM_run _
  have hlists : stageInput .lists latex = stageInput .tables latex := by
    rw [stageInput_next .tables .lists (by decide), htables, hquotes]
    exact formatTables_run (fun p hp => hpasses hp) _
  have hparagraphs : stageInput .paragraphs latex = stageInput .lists latex := by
    rw [stageInput_next .lists .paragraphs (by decide), hlists, htables, hquotes]
    have hlist : innermostList ∈ Stage.patterns .lists := by simp [Stage.patterns]
    exact formatLists_run (hpasses hlist) _
  rw [stageInput_next .paragraphs .blocks (by decide), hparagraphs, hlists, htables, hquotes]
  exact congrArg (·, _) (formatParagraphs_apart hname _)

end LatexPreview
