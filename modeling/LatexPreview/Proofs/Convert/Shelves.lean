import Mathlib
import LatexPreview.Proofs.Convert.Layout

/-!
# Storing blocks

Most stages make blocks of what they find, one or several, and leave the tokens of these
between blank lines.

* `paddedTokens` is what such a step leaves
* `Shelves`: a step that stores blocks made of certain tokens; such steps may follow each other
* `shelves_paragraphBlock`: a part that is shown as a paragraph
* `yields_part`: what becomes of a match, a part of which is shown in a block
-/

namespace LatexPreview

open Script Pattern

variable {wanted : Nat → Prop}

/-! ## Tokens between blank lines -/

/-- Tokens for new blocks, each alone between blank lines. -/
def paddedTokens (first count : Nat) : Script :=
  (List.range' first count).flatMap fun n =>
    ofText "\n\n".toList ++ .token (blockToken n) :: ofText "\n\n".toList

theorem paddedTokens_succ (first count : Nat) :
    paddedTokens first (count + 1) =
      [.char '\n', .char '\n', .token (blockToken first), .char '\n', .char '\n'] ++
        paddedTokens (first + 1) count := rfl

theorem tokens_paddedTokens (first count : Nat) :
    tokens (paddedTokens first count) = (List.range' first count).map blockToken := by
  induction count generalizing first with
  | zero => rfl
  | succ count ih => simp [paddedTokens_succ, ih, List.range'_succ]

theorem quiet_paddedTokens (first count : Nat) : Quiet (plain (paddedTokens first count)) := by
  induction count generalizing first with
  | zero => exact fun c hc => absurd hc (by simp [paddedTokens])
  | succ count ih =>
    rw [paddedTokens_succ, plain_append, quiet_append]
    have hpad : Quiet ['\n', '\n', '_', '\n', '\n'] := by decide
    exact ⟨hpad, ih (first + 1)⟩

theorem padded_paddedTokens (first count : Nat) : Padded (paddedTokens first count) := by
  induction count generalizing first with
  | zero => exact padded_of_math (by simp [paddedTokens])
  | succ count ih =>
    rw [paddedTokens_succ]
    refine Padded.append ?_ (ih (first + 1))
    intro a t b hsplit _
    rcases a with _ | ⟨x, _ | ⟨y, _ | ⟨z, a⟩⟩⟩
    · simp at hsplit
    · simp at hsplit
    · obtain ⟨rfl, rfl, -⟩ : .char '\n' = x ∧ .char '\n' = y ∧ _ := by simpa using hsplit
      exact ⟨[.char '\n'], rfl⟩
    · exfalso
      have hmem : Glyph.token t ∈ [Glyph.char '\n', .char '\n'] := by
        obtain ⟨-, -, -, htail⟩ : _ ∧ _ ∧ _ ∧ [Glyph.char '\n', .char '\n'] = a ++ .token t :: b := by
          simpa using hsplit
        rw [htail]
        simp
      simp at hmem

theorem capped_paddedTokens (first count : Nat) :
    Capped (plain (paddedTokens first (count + 1))) := by
  induction count generalizing first with
  | zero => exact ⟨⟨'\n', _, rfl, by decide⟩, ['\n', '\n', '_', '\n'], '\n', rfl, by decide⟩
  | succ count ih =>
    rw [paddedTokens_succ, plain_append]
    refine Capped.append ?_ (ih (first + 1))
    exact ⟨⟨'\n', _, rfl, by decide⟩, ['\n', '\n', '_', '\n'], '\n', rfl, by decide⟩

theorem paddedTokens_add (first m n : Nat) :
    paddedTokens first (m + n) = paddedTokens first m ++ paddedTokens (first + m) n := by
  rw [paddedTokens, ← List.range'_append_1, List.flatMap_append]
  rfl

/-! ## Steps that store blocks -/

/-- The step stores so many blocks or more, with tokens from a source, and leaves their tokens. -/
def Shelves (wanted : Nat → Prop) (source : List Token) (least : Nat) (m : Drafting Text) : Prop :=
  ∀ d : Draft, d.blocks.name = Draft.blockName → ∃ bs : List Script,
    least ≤ bs.length ∧
    m.run d = (Script.text (paddedTokens d.blocks.size bs.length),
      { d with blocks := ⟨d.blocks.name, d.blocks.contents ++ bs.map Script.text⟩ }) ∧
    (∀ b ∈ bs, Fits b) ∧
    Within (Watched wanted) (tokens bs.flatten) source

namespace Shelves

variable {source : List Token}

theorem mono {target : List Token} {least : Nat} {m : Drafting Text}
    (h : Shelves wanted source least m) (hwithin : Within (Watched wanted) source target) :
    Shelves wanted target least m := by
  intro d hd
  obtain ⟨bs, hleast, hrun, hfits, hsource⟩ := h d hd
  exact ⟨bs, hleast, hrun, hfits, hsource.trans hwithin⟩

theorem fewer {j k : Nat} {m : Drafting Text} (h : Shelves wanted source k m) (hjk : j ≤ k) :
    Shelves wanted source j m := by
  intro d hd
  obtain ⟨bs, hleast, hrest⟩ := h d hd
  exact ⟨bs, hjk.trans hleast, hrest⟩

theorem pure_nil : Shelves wanted source 0 (pure []) := by
  intro d _
  exact ⟨[], le_rfl, by simp [paddedTokens]; rfl, by simp, .nil⟩

theorem addBlock {g : Script} (hfits : Fits g) :
    Shelves wanted (tokens g) 1 (LatexPreview.addBlock (Script.text g)) := by
  intro d hd
  refine ⟨[g], le_rfl, ?_, by simpa using hfits, by simpa using .refl _⟩
  have hrun : (LatexPreview.addBlock (Script.text g)).run d =
      ("\n\n".toList ++ placeholder d.blocks.name d.blocks.size ++ "\n\n".toList,
        { d with blocks := ⟨d.blocks.name, d.blocks.contents ++ [Script.text g]⟩ }) := rfl
  rw [hrun, hd]
  simp [paddedTokens, Token.text, blockToken, TokenKind.name]

/-- Two such steps one after the other. -/
theorem seq {source' : List Token} {j k : Nat} {m n : Drafting Text}
    (hm : Shelves wanted source j m) (hn : Shelves wanted source' k n) :
    Shelves wanted (source ++ source') (j + k) (do
      let a ← m
      let b ← n
      pure (a ++ b)) := by
  intro d hd
  obtain ⟨bs, hj, hrun, hfits, hsource⟩ := hm d hd
  obtain ⟨cs, hk, hrun', hfits', hsource'⟩ := hn (m.run d).2 (by rw [hrun]; exact hd)
  refine ⟨bs ++ cs, by simp; omega, ?_, ?_, by simpa using hsource.append hsource'⟩
  · have hboth : (do
        let a ← m
        let b ← n
        pure (a ++ b) : Drafting Text).run d =
        ((m.run d).1 ++ (n.run (m.run d).2).1, (n.run (m.run d).2).2) := rfl
    rw [hboth, hrun', hrun]
    have hsize : (PlaceholderTable.mk d.blocks.name
        (d.blocks.contents ++ bs.map Script.text)).size = d.blocks.size + bs.length := by
      simp [PlaceholderTable.size]
    simp [hsize, paddedTokens_add]
  · intro b hb
    rcases List.mem_append.1 hb with hb | hb
    · exact hfits b hb
    · exact hfits' b hb

theorem yields {k : Nat} {m : Drafting Text} (h : Shelves wanted source (k + 1) m) :
    Yields wanted source m := by
  intro d _ hd
  obtain ⟨bs, hk, hrun, hfits, hsource⟩ := h d hd
  obtain ⟨n, hn⟩ : ∃ n, bs.length = n + 1 := ⟨bs.length - 1, by omega⟩
  refine ⟨paddedTokens d.blocks.size bs.length, bs,
    (List.range' d.blocks.size bs.length).map blockToken, ?_⟩
  exact {
    text := by rw [hrun]
    header := by rw [hrun]
    blocks := by rw [hrun]
    mathName := by rw [hrun]
    maths := by rw [hrun]
    newSealed := (quiet_paddedTokens _ _).sealed
    newCapped := by rw [hn]; exact capped_paddedTokens _ _
    newPadded := padded_paddedTokens _ _
    fits := hfits
    mentions := fun n hmem => hsource.subset hmem
    within := by rw [tokens_paddedTokens]; exact (Within.refl _).append hsource
    nodup := List.Nodup.map (fun a b hab => congrArg Token.number hab) List.nodup_range'
    stored := by
      intro t ht
      obtain ⟨n, hmem, rfl⟩ := List.mem_map.1 ht
      rw [List.mem_range'_1] at hmem
      rw [hrun]
      simp only [StoredBetween, blockToken, PlaceholderTable.size, List.length_append,
        List.length_map] at hmem ⊢
      exact hmem }

end Shelves

/-! ## Shown parts -/

/-- A block that shows a script. -/
theorem shelves_addBlock {f : Text → Text} (hf : Renders f) {g : Script} (hg : Sealed (plain g)) :
    Shelves wanted (tokens g) 1 (addBlock (f (text g))) := by
  obtain ⟨b, htext, htokens, hfits⟩ := hf g hg
  rw [← htext]
  exact (Shelves.addBlock hfits).mono (.of_sublist htokens)

theorem renders_paragraph : Renders paragraph := renders_styled (by decide) (by decide)

/-- A paragraph of a script, if this is not blank. -/
theorem shelves_paragraphBlock {g : Script} (hg : Sealed (plain g)) :
    Shelves wanted (tokens g) 0 (paragraphBlock (text g)) := by
  rw [paragraphBlock]
  split
  · exact .pure_nil
  · exact (shelves_addBlock (renders_paragraph.comp narrows_trim) hg).fewer (Nat.zero_le 1)

/-- A block that shows a captured part has tokens of this part. -/
theorem yields_part {p : Pattern} {label : String} (hp : p.Frames label) {h : Hit}
    (hf : p.Found h) {g : Script} (hg : text g = h.matched) (hsealed : Sealed (plain g))
    {f : Text → Text} (hrenders : Renders f) :
    Yields wanted (tokens g) (addBlock (f (h.get label))) := by
  obtain ⟨gu, c, ga, d, gv, rfl, hga, -⟩ := frames_script hp hf hg
  have hpart : ga <:+: gu ++ .char c :: (ga ++ .char d :: gv) :=
    ⟨gu ++ [.char c], .char d :: gv, by simp⟩
  rw [← hga]
  refine ((shelves_addBlock hrenders (hsealed.mono (plain_isInfix hpart))).mono ?_).yields
  exact .of_sublist (tokens_sublist hpart.sublist)

end LatexPreview
