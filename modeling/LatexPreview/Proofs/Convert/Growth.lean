import Mathlib
import LatexPreview.Convert.Document
import LatexPreview.Proofs.Pattern.Matches

/-!
# What the stages keep

The stages share a draft.  Only the stage for math stores math; all others at most add
blocks behind those that exist, so that what a token stands for never changes.

* `Draft.Grows` relates a draft to one with more blocks
* `Drafting.GrowsBlocks` are the steps that do nothing but add blocks
* `Stage.growsBlocks`: every stage but the one for math is such a step
* `liftedDraft_grows`, `convert_math`: the math of a conversion is that of its second stage
-/

namespace LatexPreview

/-! ## Drafts -/

/-- The second draft has the math of the first one, and its blocks. -/
structure Draft.Grows (d e : Draft) : Prop where
  math : e.math = d.math
  blocks : d.blocks.contents <+: e.blocks.contents

theorem Draft.Grows.refl (d : Draft) : d.Grows d := ⟨rfl, List.prefix_refl _⟩

theorem Draft.Grows.trans {d e f : Draft} (h : d.Grows e) (k : e.Grows f) : d.Grows f :=
  ⟨k.math.trans h.math, h.blocks.trans k.blocks⟩

/-! ## Steps -/

namespace Drafting

/-- A step that does nothing to the math and the blocks but add blocks. -/
def GrowsBlocks {α : Type} (m : Drafting α) : Prop := ∀ d : Draft, d.Grows (m.run d).2

theorem growsBlocks_pure {α : Type} (a : α) : GrowsBlocks (pure a) := fun d => .refl d

theorem GrowsBlocks.bind {α β : Type} {m : Drafting α} {f : α → Drafting β}
    (hm : m.GrowsBlocks) (hf : ∀ a, (f a).GrowsBlocks) : (m >>= f).GrowsBlocks :=
  fun d => (hm d).trans (hf _ _)

theorem GrowsBlocks.behind {α β : Type} (m : Drafting α) {f : α → Drafting β}
    (hf : ∀ a, (f a).GrowsBlocks) (d : Draft) : (m.run d).2.Grows ((m >>= f).run d).2 :=
  hf _ _

theorem growsBlocks_foldlM {α β : Type} {f : β → α → Drafting β} {l : List α}
    (hf : ∀ a ∈ l, ∀ b, (f b a).GrowsBlocks) (b : β) : GrowsBlocks (l.foldlM f b) := by
  induction l generalizing b with
  | nil => exact growsBlocks_pure b
  | cons a l ih =>
    rw [List.foldlM_cons]
    exact (hf a (by simp) b).bind (ih fun a ha => hf a (by simp [ha]))

theorem growsBlocks_replaceM {p : Pattern} {f : Hit → Drafting Text}
    (hf : ∀ h, (f h).GrowsBlocks) (s : Text) : GrowsBlocks (p.replaceM f s) := by
  intro d
  refine Pattern.replaceM_keeps (P := fun e _ => d.Grows e) ?_ (.refl d)
  intro e _ h _ _ he
  exact he.trans (hf h e)

theorem growsBlocks_addBlock (html : Text) : GrowsBlocks (addBlock html) :=
  fun d => ⟨rfl, List.prefix_append d.blocks.contents [html]⟩

theorem growsBlocks_paragraphBlock (s : Text) : GrowsBlocks (paragraphBlock s) := by
  unfold paragraphBlock
  split
  · exact growsBlocks_pure _
  · exact growsBlocks_addBlock _

end Drafting

open Drafting

/-! ## Stages -/

theorem growsBlocks_extractHeader (s : Text) : GrowsBlocks (extractHeader s) := by
  intro d
  unfold extractHeader
  split
  rename_i parts rest _
  cases parts with
  | nil => exact .refl d
  | cons part parts => exact ⟨rfl, List.prefix_refl _⟩

theorem growsBlocks_inlineRule {rule : InlineRule} (hr : rule ∈ inlineRules) (h : Hit) :
    GrowsBlocks (rule.format h) := by
  simp only [inlineRules, List.mem_cons, List.not_mem_nil, or_false] at hr
  rcases hr with rfl | rfl | rfl | rfl | rfl | rfl | rfl | rfl
  case inr.inr.inr.inr.inr.inr.inr => exact fun d => ⟨rfl, List.prefix_refl _⟩
  all_goals exact growsBlocks_pure _

theorem growsBlocks_formatInline (s : Text) : GrowsBlocks (formatInline s) :=
  growsBlocks_foldlM (fun _ hr => growsBlocks_replaceM (growsBlocks_inlineRule hr)) s

theorem growsBlocks_wholeTable (content : Text) : GrowsBlocks (wholeTable content) := by
  cases hfind : tabularPattern.find? content with
  | none =>
    simp only [wholeTable, hfind]
    exact growsBlocks_addBlock _
  | some h =>
    simp only [wholeTable, hfind]
    exact (growsBlocks_addBlock _).bind fun _ =>
      (growsBlocks_paragraphBlock _).bind fun _ => growsBlocks_pure _

theorem growsBlocks_formatTables (s : Text) : GrowsBlocks (formatTables s) :=
  (growsBlocks_replaceM (fun _ => growsBlocks_wholeTable _) s).bind
    (growsBlocks_replaceM fun _ => growsBlocks_addBlock _)

theorem growsBlocks_formatList (h : Hit) : GrowsBlocks (formatList h) := by
  unfold formatList
  split
  exact (growsBlocks_paragraphBlock _).bind fun _ =>
    (growsBlocks_addBlock _).bind fun _ => growsBlocks_pure _

theorem growsBlocks_formatListsFrom (fuel : Nat) (s : Text) :
    GrowsBlocks (formatListsFrom fuel s) := by
  induction fuel generalizing s with
  | zero => exact growsBlocks_pure s
  | succ fuel ih =>
    refine (growsBlocks_replaceM growsBlocks_formatList s).bind fun new => ?_
    split
    · exact growsBlocks_pure s
    · exact ih new

/-- Every stage but the one for math at most adds blocks. -/
theorem Stage.growsBlocks {stage : Stage} (h : stage ≠ .math) (s : Text) :
    GrowsBlocks (stage.run s) := by
  cases stage with
  | math => exact absurd rfl h
  | preamble => exact growsBlocks_pure _
  | header => exact growsBlocks_extractHeader s
  | inline => exact growsBlocks_formatInline s
  | sections => exact growsBlocks_replaceM (fun _ => growsBlocks_addBlock _) s
  | verbatim =>
    exact growsBlocks_foldlM (fun _ _ => growsBlocks_replaceM fun _ => growsBlocks_addBlock _) s
  | quotes => exact growsBlocks_replaceM (fun _ => growsBlocks_addBlock _) s
  | tables => exact growsBlocks_formatTables s
  | lists => exact growsBlocks_formatListsFrom _ s
  | paragraphs | blocks => exact fun d => .refl d

/-! ## Whole conversions -/

/-- The draft when the math has been lifted out of a document. -/
def liftedDraft (latex : Text) : Draft := ((liftMath (stripDeclarations latex)).run .fresh).2

/-- The draft at the end of a conversion. -/
def finalDraft (latex : Text) : Draft := ((runStages latex).run .fresh).2

/-- The text at the end of a conversion. -/
def finalText (latex : Text) : Text := ((runStages latex).run .fresh).1

theorem runStages_eq (latex : Text) :
    runStages latex = liftMath (stripDeclarations latex) >>= fun s =>
      (Stage.all.drop 2).foldlM (fun s stage => stage.run s) s := by
  rw [runStages, show Stage.all = .preamble :: .math :: Stage.all.drop 2 from rfl, List.foldlM_cons]
  rw [Stage.run, pure_bind, List.foldlM_cons]
  rfl

/-- Behind the second stage of a conversion, blocks are added and nothing else. -/
theorem liftedDraft_grows (latex : Text) : (liftedDraft latex).Grows (finalDraft latex) := by
  have hlater : ∀ s, GrowsBlocks ((Stage.all.drop 2).foldlM (fun s stage => stage.run s) s) :=
    growsBlocks_foldlM fun stage hstage =>
      stage.growsBlocks (by rintro rfl; exact absurd hstage (by decide))
  rw [finalDraft, liftedDraft, runStages_eq]
  exact GrowsBlocks.behind _ hlater .fresh

/-- The header and the text, and a paragraph of the tokens that are in neither. -/
theorem convert_eq (latex : Text) :
    convert latex =
      let html := (finalDraft latex).header ++ finalText latex
      ⟨html ++ lostTokens (finalDraft latex).math html, (finalDraft latex).math.entries⟩ := by
  rw [convert, convertOn, finalDraft, finalText]
  generalize runStages latex = stages
  rfl

/-- The math of a conversion is what has been lifted. -/
theorem convert_math (latex : Text) : (convert latex).math = (liftedDraft latex).math.entries := by
  rw [convert_eq, (liftedDraft_grows latex).math]

end LatexPreview
