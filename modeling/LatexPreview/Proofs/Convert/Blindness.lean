import Mathlib
import LatexPreview.Convert.Document
import LatexPreview.Proofs.Pattern.Matches
import LatexPreview.Proofs.Text.Sliced

/-!
# What the stages can tell about math

Math that has been lifted is only counted: its tokens have numbers, and no stage looks at what
stands behind them.  So two runs that differ in nothing but the sources of their math go
through the same texts.

* `Draft.Alike` relates drafts with the same number of contents in their tables for math
* `Drafting.Agrees` relates steps that do the same on such drafts
* `agrees_storeSpans`: storing spans agrees with storing any others
* `Stage.agrees`: every stage but the one for math agrees with itself
-/

namespace LatexPreview

/-- The drafts differ in nothing but what their math is. -/
structure Draft.Alike (d e : Draft) : Prop where
  blocks : e.blocks = d.blocks
  header : e.header = d.header
  footnotes : e.footnotes = d.footnotes
  mathName : e.math.name = d.math.name
  mathSize : e.math.size = d.math.size

theorem Draft.Alike.refl (d : Draft) : d.Alike d := ⟨rfl, rfl, rfl, rfl, rfl⟩

theorem Draft.Alike.tokens {d e : Draft} (h : d.Alike e) : e.math.tokens = d.math.tokens := by
  rw [PlaceholderTable.tokens, h.mathSize, h.mathName, PlaceholderTable.tokens]

namespace Drafting

variable {α β : Type}

/-- On drafts that are alike, the steps have the same result and leave drafts that are alike. -/
def Agrees (m m' : Drafting α) : Prop :=
  ∀ d e : Draft, d.Alike e → (m.run d).1 = (m'.run e).1 ∧ (m.run d).2.Alike (m'.run e).2

theorem agrees_pure (a : α) : Agrees (pure a) (pure a) := fun _ _ h => ⟨rfl, h⟩

theorem Agrees.bind {m m' : Drafting α} {f f' : α → Drafting β} (hm : Agrees m m')
    (hf : ∀ a, Agrees (f a) (f' a)) : Agrees (m >>= f) (m' >>= f') := by
  intro d e h
  obtain ⟨hresult, hdraft⟩ := hm d e h
  have hrun : (m' >>= f').run e = (f' (m.run d).1).run (m'.run e).2 := by rw [hresult]; rfl
  rw [hrun]
  exact hf _ _ _ hdraft

/-- Rows of steps agree if their steps do, one by one. -/
theorem agrees_mapM {γ : Type} {R : α → β → Prop} {f : α → Drafting γ} {f' : β → Drafting γ}
    (hf : ∀ a b, R a b → Agrees (f a) (f' b)) {l : List α} {l' : List β}
    (h : List.Forall₂ R l l') : Agrees (l.mapM f) (l'.mapM f') := by
  induction h with
  | nil => exact agrees_pure []
  | cons hab _ ih =>
    rw [List.mapM_cons, List.mapM_cons]
    exact (hf _ _ hab).bind fun _ => ih.bind fun _ => agrees_pure _

theorem agrees_foldlM {f : β → α → Drafting β} {l : List α}
    (hf : ∀ a ∈ l, ∀ b, Agrees (f b a) (f b a)) (b : β) : Agrees (l.foldlM f b) (l.foldlM f b) := by
  induction l generalizing b with
  | nil => exact agrees_pure b
  | cons a l ih =>
    rw [List.foldlM_cons]
    exact (hf a (by simp) b).bind (ih fun a ha => hf a (by simp [ha]))

theorem agrees_replaceM {p : Pattern} {f : Hit → Drafting Text} (hf : ∀ h, Agrees (f h) (f h))
    (s : Text) : Agrees (p.replaceM f s) (p.replaceM f s) := by
  refine Agrees.bind (agrees_mapM (R := Eq) ?_ (List.forall₂_same.2 fun _ _ => rfl))
    fun _ => agrees_pure _
  rintro h _ rfl
  exact (hf h).bind fun _ => agrees_pure _

theorem agrees_addBlock (html : Text) : Agrees (addBlock html) (addBlock html) := by
  intro d e h
  constructor
  · show "\n\n".toList ++ placeholder d.blocks.name d.blocks.size ++ "\n\n".toList =
      "\n\n".toList ++ placeholder e.blocks.name e.blocks.size ++ "\n\n".toList
    rw [h.blocks]
  · exact ⟨by show (e.blocks.store html).2 = (d.blocks.store html).2; rw [h.blocks], h.header,
      h.footnotes, h.mathName, h.mathSize⟩

/-- Storing math agrees with storing any other math. -/
theorem agrees_storeMath (source source' : Text) :
    Agrees (storeMath source) (storeMath source') := by
  intro d e h
  constructor
  · show placeholder d.math.name d.math.size = placeholder e.math.name e.math.size
    rw [h.mathName, h.mathSize]
  · refine ⟨h.blocks, h.header, h.footnotes, h.mathName, ?_⟩
    have hsize := h.mathSize
    show (e.math.contents ++ [source']).length = (d.math.contents ++ [source]).length
    simpa [PlaceholderTable.size] using hsize

theorem agrees_liftSpan (place : MathPlace) (source source' : Text) :
    Agrees (liftSpan place source) (liftSpan place source') := by
  refine (agrees_storeMath source source').bind fun token => ?_
  cases place with
  | block => exact agrees_addBlock token
  | inline => exact agrees_pure token

theorem agrees_paragraphBlock (s : Text) : Agrees (paragraphBlock s) (paragraphBlock s) := by
  unfold paragraphBlock
  split
  · exact agrees_pure _
  · exact agrees_addBlock _

end Drafting

open Drafting

/-! ## Stages -/

theorem agrees_extractHeader (s : Text) : Agrees (extractHeader s) (extractHeader s) := by
  intro d e h
  unfold extractHeader
  split
  rename_i parts rest _
  cases parts with
  | nil => exact ⟨rfl, h⟩
  | cons part parts => exact ⟨rfl, h.blocks, rfl, h.footnotes, h.mathName, h.mathSize⟩

theorem agrees_footnoteMark (h : Hit) : Agrees (footnoteMark h) (footnoteMark h) := by
  intro d e hde
  refine ⟨?_, hde.blocks, hde.header, ?_, hde.mathName, hde.mathSize⟩
  · show Html.element "sup" _ ('[' :: Text.ofNat (d.footnotes + 1) ++ [']']) =
      Html.element "sup" _ ('[' :: Text.ofNat (e.footnotes + 1) ++ [']'])
    rw [hde.footnotes]
  · show e.footnotes + 1 = d.footnotes + 1
    rw [hde.footnotes]

theorem agrees_inlineRule {rule : InlineRule} (hr : rule ∈ inlineRules) (h : Hit) :
    Agrees (rule.format h) (rule.format h) := by
  simp only [inlineRules, List.mem_cons, List.not_mem_nil, or_false] at hr
  rcases hr with rfl | rfl | rfl | rfl | rfl | rfl | rfl | rfl
  case inr.inr.inr.inr.inr.inr.inr => exact agrees_footnoteMark h
  all_goals exact agrees_pure _

theorem agrees_wholeTable (content : Text) : Agrees (wholeTable content) (wholeTable content) := by
  cases hfind : tabularPattern.find? content with
  | none =>
    simp only [wholeTable, hfind]
    exact agrees_addBlock _
  | some h =>
    simp only [wholeTable, hfind]
    exact (agrees_addBlock _).bind fun _ => (agrees_paragraphBlock _).bind fun _ => agrees_pure _

theorem agrees_formatList (h : Hit) : Agrees (formatList h) (formatList h) := by
  unfold formatList
  split
  exact (agrees_paragraphBlock _).bind fun _ => (agrees_addBlock _).bind fun _ => agrees_pure _

theorem agrees_formatListsFrom (fuel : Nat) (s : Text) :
    Agrees (formatListsFrom fuel s) (formatListsFrom fuel s) := by
  induction fuel generalizing s with
  | zero => exact agrees_pure s
  | succ fuel ih =>
    refine (agrees_replaceM agrees_formatList s).bind fun new => ?_
    split
    · exact agrees_pure s
    · exact ih new

/-- Every stage but the one for math does the same whatever the math is. -/
theorem Stage.agrees {stage : Stage} (h : stage ≠ .math) (s : Text) :
    Agrees (stage.run s) (stage.run s) := by
  cases stage with
  | math => exact absurd rfl h
  | preamble => exact agrees_pure _
  | header => exact agrees_extractHeader s
  | inline => exact agrees_foldlM (fun _ hr => agrees_replaceM (agrees_inlineRule hr)) s
  | sections => exact agrees_replaceM (fun _ => agrees_addBlock _) s
  | verbatim => exact agrees_foldlM (fun _ _ => agrees_replaceM fun _ => agrees_addBlock _) s
  | quotes => exact agrees_replaceM (fun _ => agrees_addBlock _) s
  | tables =>
    exact (agrees_replaceM (fun _ => agrees_wholeTable _) s).bind
      (agrees_replaceM fun _ => agrees_addBlock _)
  | lists => exact agrees_formatListsFrom _ s
  | paragraphs =>
    intro d e hde
    refine ⟨?_, hde⟩
    show formatParagraphs d.blocks s = formatParagraphs e.blocks s
    rw [hde.blocks]
  | blocks =>
    intro d e hde
    refine ⟨?_, hde⟩
    show d.blocks.resolve s = e.blocks.resolve s
    rw [hde.blocks]

/-! ## Lifting -/

/-- Takes spans out, from left to right. -/
def storeSpans (place : MathPlace) (spans : List Text) : Drafting (List Text) :=
  spans.mapM (liftSpan place)

theorem agrees_storeSpans (place : MathPlace) {spans spans' : List Text}
    (h : spans.length = spans'.length) :
    Agrees (storeSpans place spans) (storeSpans place spans') := by
  refine agrees_mapM (R := fun _ _ => True) (fun _ _ _ => agrees_liftSpan place _ _) ?_
  rw [List.forall₂_iff_zip]
  exact ⟨h, fun _ => trivial⟩

theorem length_storeSpans (place : MathPlace) (spans : List Text) (d : Draft) :
    ((storeSpans place spans).run d).1.length = spans.length := by
  induction spans generalizing d with
  | nil => rfl
  | cons span spans ih =>
    rw [storeSpans, List.mapM_cons]
    exact congrArg (· + 1) (ih _)

/-- To lift the math of a kind is to take its spans out and to put their tokens in place. -/
theorem replaceM_liftSpan (place : MathPlace) (c : Cut) (d : Draft) :
    (c.replaceM fun h => liftSpan place h.matched).run d =
      let stored := (storeSpans place c.sliced.slices).run d
      (c.sliced.refill stored.1, stored.2) := by
  obtain ⟨hits, tail⟩ := c
  induction hits generalizing d with
  | nil => rfl
  | cons h hits ih =>
    rw [Pattern.replaceM_cons]
    dsimp only
    rw [ih]
    simp only [Cut.sliced, List.foldr_cons, Sliced.slices, storeSpans, List.mapM_cons]
    rfl

end LatexPreview
