import Mathlib
import LatexPreview.Convert.Quotes
import LatexPreview.Proofs.Environments.Clearing
import LatexPreview.Proofs.Pattern.Environment
import LatexPreview.Proofs.Pattern.Front

/-!
# Quotations in trees

The stage for quotations takes a quotation out with what is in it as it is.  So it is made for
quotations without environments.

* `quoteClearing` is the stage for quotations
* `stains_quotes`: with an environment in a quotation, a tag is stored
-/

namespace LatexPreview

open Pattern Text

/-- The names of the environments for quotations. -/
def quoteNames : List Text := ["quote".toList, "quotation".toList]

theorem quotePattern_eq : quotePattern = environmentPattern quoteNames any := rfl

/-- What is shown of a quotation. -/
def quoteHtml (source : Text) : Text := Html.styled "blockquote" Style.quote source.trim

theorem formatQuotes_eq (s : Text) :
    formatQuotes s = quotePattern.replaceM (fun h => addBlock (quoteHtml (h.get "body"))) s := rfl

theorem tagless_quoteHtml {source : Text} : Tagless (quoteHtml source) ↔ Tagless source := by
  rw [quoteHtml, tagless_styled (by simp [blockElements]), tagless_trim]

/-- The name of an environment for quotations. -/
theorem Enclosure.quotation_cases {e : Enclosure} (h : e.place = .quotation) :
    e.name.toList ∈ quoteNames ∧
      (∀ n ∈ quoteNames, n = e.name.toList ∨ Clash n (e.name.toList ++ ['}'])) ∧
      e.opening = beginTag e.name.toList := by
  cases e with
  | quote => exact ⟨by simp [quoteNames, name], by decide, by simp [opening, declaration]⟩
  | quotation => exact ⟨by simp [quoteNames, name], by decide, by simp [opening, declaration]⟩
  | list _ | tabular _ _ => simp [place] at h

/-- The tags of other environments are not those of quotations. -/
theorem Enclosure.refused_by_quotes {e : Enclosure} (h : e.place ≠ .quotation) :
    quotePattern.Refuses ('\\' :: openingName e.name) ∧
      quotePattern.Refuses ('\\' :: closingName e.name) := by
  cases e with
  | quote | quotation => exact absurd rfl h
  | list kind => cases kind <;> decide +kernel
  | tabular columns hcolumns =>
    show quotePattern.Refuses ('\\' :: openingName "tabular") ∧
      quotePattern.Refuses ('\\' :: closingName "tabular")
    decide +kernel

/-- A quotation is found up to the first tag that closes it. -/
theorem at?_quote {e : Enclosure} (h : e.place = .quotation) {x : Text} (s : Text)
    (havoids : Avoids e.closing x (e.closing ++ s)) (b : Option Char) : ∃ stop,
      quotePattern.at? b (e.tagged x ++ s) = some stop ∧ stop.rest = s ∧
        stop.get? "body" = some x := by
  obtain ⟨hname, halone, hopening⟩ := e.quotation_cases h
  obtain ⟨stop, hstop, hrest, -, hbody⟩ :=
    environmentPattern_hit hname halone havoids (walks_any x _) b
  refine ⟨stop, ?_, hrest, hbody⟩
  rw [quotePattern_eq, ← hstop, Enclosure.tagged, hopening, Enclosure.closing, List.append_assoc,
    List.append_assoc]

theorem addBlock_of_stop {stop : Cursor} {x : Text} (h : stop.get? "body" = some x) {f : Text → Text}
    (gap matched : Text) : addBlock (f (Hit.get ⟨gap, matched, stop⟩ "body")) = addBlock (f x) := by
  rw [Hit.get, h, Option.getD_some]

/-- The stage for quotations. -/
def quoteClearing : Clearing where
  pattern := quotePattern
  format h := addBlock (quoteHtml (h.get "body"))
  ready e _ := e.place == .quotation
  take _ x := addBlock (quoteHtml x)
  fit e body := e.place = .quotation → body.places = []
  consumes := opens_quotePattern.consumes
  leaf x s := rewrites_leaf opens_quotePattern (fun _ _ => rfl) (by decide +kernel) x s
  taken := by
    intro e body hfit hready s
    have hplace : e.place = .quotation := by simpa using hready
    have hplain : '\\' ∉ body.text := EnvTree.slash_not_mem_text (.inr hplace) (hfit hplace)
    refine rewrites_hit opens_quotePattern.consumes
      (by simp [Enclosure.tagged, Enclosure.opening, beginTag]) fun b => ?_
    obtain ⟨stop, hstop, hrest, hbody⟩ := at?_quote hplace s (avoids_of_not_mem hplain) b
    exact ⟨stop, hstop, hrest, addBlock_of_stop hbody _ _⟩
  left := by
    intro e body hfit hall hready act hact s
    have hplace : e.place ≠ .quotation := by simpa using hready
    obtain ⟨hopening, hclosing⟩ := e.refused_by_quotes hplace
    exact rewrites_left opens_quotePattern (fun _ _ => rfl) hopening hclosing hact s
  tidy := by
    intro e body hfit hready d hd
    have hplace : e.place = .quotation := by simpa using hready
    have hplain : '\\' ∉ body.text := EnvTree.slash_not_mem_text (.inr hplace) (hfit hplace)
    exact hd.exists_addBlock enclosed_styled (tagless_quoteHtml.2 (tagless_of_not_mem hplain))

/-- A tag is stored with a quotation, if there is an environment in it. -/
theorem stains_quotes {p : EnvPlace} {t : EnvTree p} (h : ¬ t.All quoteClearing.fit) (s : Text) :
    quoteClearing.Stains t.text s := by
  refine quoteClearing.stains (fun hfit hready => ?_) (fun {e} {body} hfit hready s => ?_)
    (fun {e} {body} hfit s => ?_) h s
  · exact hfit (beq_iff_eq.1 hready)
  · obtain ⟨hopening, -⟩ := e.refused_by_quotes (beq_eq_false_iff_ne.1 hready)
    exact rewrites_opening opens_quotePattern (fun _ _ => rfl) hopening s
  · obtain ⟨hplace, hplaces⟩ := Classical.not_imp.1 hfit
    obtain ⟨front, v, r, -, htext, havoids⟩ := exists_end e hplaces s
    have htag : ¬ Tagless (front.text ++ ("\\begin\x7b".toList ++ v)) := fun htagless =>
      htagless _ List.mem_cons_self ⟨front.text, v, by simp⟩
    generalize front.text ++ ("\\begin\x7b".toList ++ v) = x at htext havoids htag
    have hwhole : e.tagged body.text ++ s = e.tagged x ++ r := by
      simp only [Enclosure.tagged, List.append_assoc] at htext ⊢
      rw [htext]
    refine Clearing.stains_hit (fun _ => Drafting.growsBlocks_addBlock _)
      (by simp [Enclosure.tagged, Enclosure.opening, beginTag]) hwhole fun b => ?_
    obtain ⟨stop, hstop, hrest, hbody⟩ := at?_quote hplace r havoids b
    have hformat : quoteClearing.format ⟨[], e.tagged x, stop⟩ = addBlock (quoteHtml x) :=
      addBlock_of_stop hbody [] (e.tagged x)
    refine ⟨stop, hstop, hrest, fun d => ⟨quoteHtml x, ?_, tagless_quoteHtml.not.2 htag⟩⟩
    rw [hformat]
    exact List.mem_append_right _ List.mem_cons_self

end LatexPreview
