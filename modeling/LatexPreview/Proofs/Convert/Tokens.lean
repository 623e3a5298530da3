import Mathlib
import LatexPreview.Proofs.Convert.Growth
import LatexPreview.Proofs.Convert.Stages
import LatexPreview.Proofs.Pattern.Scan

/-!
# The tokens in a converted document

The last stage puts the blocks back, the header is put in front, and tokens for math that have
been lost follow at the end.  So a token for math stands in the result as often as it stood in
the header, the text and all blocks, and once if it stood in none of them.  A token of a block
is left where it stands in the header, or in a block whose own token has been lost.

* `tokensFound` is how often a search finds a token, `copies` how often it stands in the parts
* `exists_htmlScript`: the result as a script
* `math_tokens_in_html`: each token for math is found once for each copy, but at least once
* `block_tokens_in_html`: where tokens of blocks are left
-/

namespace LatexPreview

open Script Pattern

/-! ## Searching -/

/-- How often a search for math finds the token in a text. -/
def tokensFound (token s : Text) : Nat :=
  ((placeholderPattern Draft.mathName).cut s).hits.countP (·.matched == token)

theorem tokensFound_text {g : Script} (hg : Sealed (plain g)) (n : Nat) :
    tokensFound (placeholder Draft.mathName n) (text g) = (tokens g).count ⟨.math, n⟩ :=
  countP_hits hg ⟨.math, n⟩

/-- How often the token stands in what the last stage is given: the text, the header and the
blocks. -/
def copies (latex token : Text) : Nat :=
  tokensFound token (stageInput .blocks latex).1 +
    tokensFound token (stageInput .blocks latex).2.header +
    ((stageInput .blocks latex).2.blocks.contents.map (tokensFound token)).sum

theorem Shelf.sealed_of_mem {cs : List Script} (hcs : Shelf cs) {c : Script} (hc : c ∈ cs) :
    Sealed (plain c) := by
  rw [← map_contentAt_range cs] at hc
  obtain ⟨n, hn, rfl⟩ := List.mem_map.1 hc
  exact hcs.isSealed n (by simpa using hn)

theorem sum_tokensFound {cs : List Script} (hcs : ∀ c ∈ cs, Sealed (plain c)) (n : Nat) :
    ((cs.map text).map (tokensFound (placeholder Draft.mathName n))).sum =
      (tokens cs.flatten).count ⟨.math, n⟩ := by
  induction cs with
  | nil => rfl
  | cons c cs ih =>
    rw [List.map_cons, List.map_cons, List.sum_cons, ih fun x hx => hcs x (by simp [hx]),
      tokensFound_text (hcs c (by simp))]
    simp

theorem copies_eq {wanted : Nat → Prop} {latex : Text} {l : Layout}
    (hshows : l.Shows (stageInput .blocks latex).2 (stageInput .blocks latex).1)
    (hsound : l.Sound wanted) (n : Nat) :
    copies latex (placeholder Draft.mathName n) = l.everything.count ⟨.math, n⟩ := by
  have hblocks : (stageInput .blocks latex).2.blocks.contents = l.blocks.map text := by
    rw [hshows.blocks]
    rfl
  rw [copies, hshows.text, hshows.header, hblocks, tokensFound_text hsound.textSealed,
    tokensFound_text hsound.headerSealed, sum_tokensFound fun c => hsound.shelf.sealed_of_mem]
  rw [Layout.everything, List.count_append, List.count_append]

/-! ## Lost tokens -/

/-- Tokens with blanks between them. -/
def spaced : List Token → Script
  | [] => []
  | [t] => [.token t]
  | t :: u :: more => .token t :: .char ' ' :: spaced (u :: more)

theorem text_spaced (ts : List Token) : text (spaced ts) = Text.join [' '] (ts.map Token.text) := by
  fun_induction spaced ts with
  | case1 => rfl
  | case2 t => simp [Text.join]
  | case3 t u more ih => simp [Text.join, ih]

theorem tokens_spaced (ts : List Token) : tokens (spaced ts) = ts := by
  fun_induction spaced ts with
  | case1 => rfl
  | case2 t => rfl
  | case3 t u more ih => simp [ih]

theorem quiet_spaced (ts : List Token) : Quiet (plain (spaced ts)) := by
  fun_induction spaced ts with
  | case1 => simp [Quiet]
  | case2 t => simp [Quiet]
  | case3 t u more ih =>
    simp only [plain_token, plain_char, quiet_cons]
    exact ⟨by simp, by simp, ih⟩

/-- The paragraph of lost tokens has exactly those that the page does not hold. -/
theorem exists_lostScript {g : Script} (hg : Sealed (plain g)) (math : PlaceholderTable)
    (hname : math.name = Draft.mathName) :
    ∃ b, lostTokens math (text g) = text b ∧ (b = [] ∨ Fits b) ∧
      tokens b = ((List.range math.size).map (Token.mk .math)).filter (· ∉ tokens g) := by
  have hlost : math.tokens.filter (!(text g).contains ·) =
      (((List.range math.size).map (Token.mk .math)).filter (· ∉ tokens g)).map Token.text := by
    have hsame : ((!(text g).contains ·) ∘ Token.text) = fun t : Token => decide (t ∉ tokens g) := by
      funext t
      have hiff : (text g).contains t.text = true ↔ t ∈ tokens g :=
        Text.contains_iff.trans (infix_text hg t)
      by_cases ht : t ∈ tokens g
      · simp [ht, hiff.2 ht]
      · simp [ht, mt hiff.1 ht]
    have htokens : math.tokens = ((List.range math.size).map (Token.mk .math)).map Token.text := by
      rw [PlaceholderTable.tokens, hname, List.map_map]
      rfl
    rw [htokens, List.filter_map, hsame]
  rw [lostTokens, hlost]
  generalize ((List.range math.size).map (Token.mk .math)).filter (· ∉ tokens g) = ts
  cases ts with
  | nil => exact ⟨[], rfl, .inl rfl, rfl⟩
  | cons t ts =>
    have hfront : Quiet (elementFront "p" [("style", Style.paragraph.toList)]) := by decide
    refine ⟨elementScript "p" [("style", Style.paragraph.toList)] (spaced (t :: ts)), ?_,
      .inr (fits_elementScript hfront (by decide) (quiet_spaced _).sealed), ?_⟩
    · rw [text_elementScript, text_spaced]
      rfl
    · rw [tokens_elementScript, tokens_spaced]

/-- A token that is lost stands in the paragraph once. -/
theorem count_lost (ts : List Token) {n size : Nat} (hn : n < size) :
    (((List.range size).map (Token.mk .math)).filter (· ∉ ts)).count ⟨.math, n⟩ =
      1 - ts.count ⟨.math, n⟩ := by
  by_cases ht : (⟨.math, n⟩ : Token) ∈ ts
  · have hnot : (⟨.math, n⟩ : Token) ∉
        ((List.range size).map (Token.mk .math)).filter (· ∉ ts) := by simp [ht]
    have hpos := List.count_pos_iff.2 ht
    rw [List.count_eq_zero.2 hnot]
    omega
  · have hnodup : ((List.range size).map (Token.mk .math)).Nodup :=
      List.nodup_range.map fun a b h => congrArg Token.number h
    rw [List.count_filter (by simpa using ht), List.count_eq_zero.2 ht]
    exact List.count_eq_one_of_mem hnodup (by simpa using hn)

/-! ## The result -/

/-- The parts of the result: the header, the text with all blocks, and the lost tokens. -/
theorem exists_htmlScript {wanted : Nat → Prop} {latex : Text} {l : Layout}
    (hshows : l.Shows (stageInput .blocks latex).2 (stageInput .blocks latex).1)
    (hsound : l.Sound wanted) :
    ∃ g, (convert latex).html = text g ∧ Sealed (plain g) ∧
      (∀ n < l.maths, (tokens g).count ⟨.math, n⟩ = max 1 (l.everything.count ⟨.math, n⟩)) ∧
      ((∃ t ∈ tokens g, t.kind = .block) ↔ (∃ t ∈ tokens l.header, t.kind = .block) ∨
        ∃ n < l.blocks.length, standing l.blocks l.text (blockToken n) = 0 ∧
          ∃ t ∈ tokens (contentAt l.blocks n), t.kind = .block) := by
  have hknown : ∀ n, blockToken n ∈ tokens l.text → n < l.blocks.length := fun n hn =>
    hsound.known (blockToken n) (by simp [Layout.everything, hn])
  have honce : ∀ n, standing l.blocks l.text (blockToken n) ≤ 1 := by
    intro n
    have hle := hsound.once (blockToken n) (by simp [Watched, blockToken])
    simp only [Layout.everything, List.count_append] at hle
    rw [standing]
    omega
  obtain ⟨r, hresolve, hsealed, hcount, hblocks⟩ :=
    resolve_text hsound.shelf hsound.textSealed hknown honce
  have hfront : Sealed (plain (l.header ++ r)) := by
    rcases hsound.headerCapped with hnone | hcapped
    · rwa [hnone, List.nil_append]
    · exact Fits.append_sealed ⟨hsound.headerSealed, hcapped⟩ hsealed
  obtain ⟨b, hlost, hfits, htokens⟩ :=
    exists_lostScript hfront (stageInput .blocks latex).2.math hshows.mathName
  have hhtml : (convert latex).html = text (l.header ++ r ++ b) := by
    have hfinal := runStages_run latex
    have hpage : (finalDraft latex).header ++ finalText latex = text (l.header ++ r) := by
      rw [finalDraft, finalText, hfinal, hshows.header, hshows.blocks, hshows.text, hresolve,
        text_append]
    rw [convert_eq]
    simp only [hpage]
    rw [finalDraft, hfinal, hlost, ← text_append]
  refine ⟨l.header ++ r ++ b, hhtml, ?_, fun n hn => ?_, ?_⟩
  · rcases hfits with rfl | ⟨hb, hcapped⟩
    · rwa [List.append_nil]
    · have hfit := (sealed_append_capped (a := plain (l.header ++ r)) (b := []) hcapped).2
        ⟨hfront, hb, sealed_nil⟩
      simpa using hfit
  · have hstands : (tokens (l.header ++ r)).count ⟨.math, n⟩ = l.everything.count ⟨.math, n⟩ := by
      have hr := hcount n
      rw [standing] at hr
      simp only [Layout.everything, tokens_append, List.count_append, hr]
      omega
    rw [tokens_append, List.count_append, htokens, hshows.maths, count_lost _ hn, hstands]
    omega
  · simp only [tokens_append, List.mem_append, or_and_right, exists_or, hblocks]
    refine or_iff_left ?_
    rintro ⟨t, ht, hkind⟩
    rw [htokens] at ht
    obtain ⟨m, -, rfl⟩ := List.mem_map.1 (List.mem_filter.1 ht).1
    exact absurd hkind (by simp)

/-! ## Tokens for math -/

/-- The tokens of a conversion are those of its math, in order. -/
theorem keys_convert {latex : Text} {l : Layout}
    (hshows : l.Shows (stageInput .blocks latex).2 (stageInput .blocks latex).1) :
    (convert latex).math.map (·.1) = (List.range l.maths).map (placeholder Draft.mathName) := by
  have hfinal : (finalDraft latex).math = (stageInput .blocks latex).2.math := by
    rw [finalDraft, runStages_run]
  rw [convert_eq]
  simp only [PlaceholderTable.entries, hfinal]
  rw [List.map_fst_zip (by simp [PlaceholderTable.tokens, PlaceholderTable.size]),
    PlaceholderTable.tokens, hshows.mathName, hshows.maths]

/-- A token for math is found in the result as often as it stands in what the last stage is
given, but at least once; and it stands there once at most, unless a link or a table repeats it. -/
theorem math_tokens_in_html (latex : Text) (hs : Sealed (stripDeclarations latex)) :
    ∀ token ∈ (convert latex).math.map (·.1),
      tokensFound token (convert latex).html = max 1 (copies latex token) ∧
      (tokensFound token (convert latex).html = 1 ↔ copies latex token ≤ 1) ∧
      (¬ RepeatedByLink latex token → ¬ RepeatedByTable latex token → copies latex token ≤ 1) := by
  let wanted : Nat → Prop := fun n =>
    ¬ RepeatedByLink latex (placeholder Draft.mathName n) ∧
      ¬ RepeatedByTable latex (placeholder Draft.mathName n)
  have hlink : ∀ n, wanted n → ¬ RepeatedByLink latex (placeholder Draft.mathName n) :=
    fun n hn => hn.1
  have htable : ∀ n, wanted n → ¬ RepeatedByTable latex (placeholder Draft.mathName n) :=
    fun n hn => hn.2
  obtain ⟨l, hshows, hsound⟩ := sound_blocks hs hlink htable
  intro token htoken
  rw [keys_convert hshows] at htoken
  obtain ⟨n, hn, rfl⟩ := List.mem_map.1 htoken
  obtain ⟨g, hhtml, hsealed, hcount, -⟩ := exists_htmlScript hshows hsound
  have hfound : tokensFound (placeholder Draft.mathName n) (convert latex).html =
      max 1 (copies latex (placeholder Draft.mathName n)) := by
    rw [hhtml, tokensFound_text hsealed, hcount n (List.mem_range.1 hn), copies_eq hshows hsound]
  refine ⟨hfound, by omega, fun hno hnot => ?_⟩
  rw [copies_eq hshows hsound]
  exact hsound.once ⟨.math, n⟩ fun _ => ⟨hno, hnot⟩

/-- The math of a heading is found once. -/
theorem math_tokens_in_html_heading :
    tokensFound "__MTH_0__".toList (convert "\\section\x7b$x$\x7d".toList).html = 1 := by
  have hs : Sealed (stripDeclarations "\\section\x7b$x$\x7d".toList) := by decide +kernel
  have htoken : "__MTH_0__".toList ∈
      (convert "\\section\x7b$x$\x7d".toList).math.map (·.1) := by decide +kernel
  obtain ⟨-, honce, hcopies⟩ := math_tokens_in_html _ hs _ htoken
  exact honce.2 (hcopies (by decide +kernel) (by decide +kernel))

/-- The math in a plain address is found twice. -/
theorem math_in_address_is_repeated :
    ¬ ∀ latex : Text, ¬ Draft.mathName <:+: latex → ¬ Draft.blockName <:+: latex →
      ∀ token ∈ (convert latex).math.map (·.1), tokensFound token (convert latex).html = 1 := by
  intro h
  have hfound := h "\\url\x7b$x$\x7d".toList (by decide +kernel) (by decide +kernel)
    "__MTH_0__".toList (by decide +kernel)
  exact absurd hfound (by decide +kernel)

/-! ## Tokens of blocks -/

/-- The token of a block stands neither in the text that the last stage is given nor in a block. -/
def BlockLost (latex : Text) (n : Nat) : Prop :=
  ¬ placeholder Draft.blockName n <:+: (stageInput .blocks latex).1 ∧
    ∀ content ∈ (stageInput .blocks latex).2.blocks.contents,
      ¬ placeholder Draft.blockName n <:+: content

/-- Does a text hold the token of a block? -/
def holdsBlockToken (s : Text) : Bool := (placeholderPattern Draft.blockName).occursIn s

theorem holdsBlockToken_text {g : Script} (hg : Sealed (plain g)) :
    holdsBlockToken (text g) = false ↔ ¬ ∃ t ∈ tokens g, t.kind = .block := by
  rw [holdsBlockToken, ← Bool.not_eq_true]
  exact not_congr (occursIn_text hg .block)

theorem blockLost_iff {wanted : Nat → Prop} {latex : Text} {l : Layout}
    (hshows : l.Shows (stageInput .blocks latex).2 (stageInput .blocks latex).1)
    (hsound : l.Sound wanted) (n : Nat) :
    BlockLost latex n ↔ standing l.blocks l.text (blockToken n) = 0 := by
  have hblocks : (stageInput .blocks latex).2.blocks.contents = l.blocks.map text := by
    rw [hshows.blocks]
    rfl
  have hshown : placeholder Draft.blockName n = (blockToken n).text := rfl
  have hcontents : (∀ c ∈ l.blocks, blockToken n ∉ tokens c) ↔
      blockToken n ∉ tokens l.blocks.flatten := by
    simp [tokens, List.filterMap_flatten]
  rw [BlockLost, hshows.text, hblocks, hshown, infix_text hsound.textSealed, standing,
    Nat.add_eq_zero_iff, List.count_eq_zero, List.count_eq_zero, ← hcontents, List.forall_mem_map]
  refine and_congr_right fun _ => forall₂_congr fun c hc => ?_
  rw [infix_text (hsound.shelf.sealed_of_mem hc)]

/-- No token of a block is left in the result if and only if there is none in the header and none
in a block whose own token has been lost. -/
theorem block_tokens_in_html (latex : Text) (hs : Sealed (stripDeclarations latex)) :
    holdsBlockToken (convert latex).html = false ↔
      holdsBlockToken (stageInput .blocks latex).2.header = false ∧
      ∀ n content, (stageInput .blocks latex).2.blocks.contents[n]? = some content →
        BlockLost latex n → holdsBlockToken content = false := by
  -- No token for math is watched here, so it does not matter which of them are copied.
  let wanted : Nat → Prop := fun _ => False
  have hlink : ∀ n, wanted n → ¬ RepeatedByLink latex (placeholder Draft.mathName n) :=
    fun _ hn => hn.elim
  have htable : ∀ n, wanted n → ¬ RepeatedByTable latex (placeholder Draft.mathName n) :=
    fun _ hn => hn.elim
  obtain ⟨l, hshows, hsound⟩ := sound_blocks hs hlink htable
  obtain ⟨g, hhtml, hsealed, -, hblocks⟩ := exists_htmlScript hshows hsound
  rw [hhtml, holdsBlockToken_text hsealed, hblocks, not_or, hshows.header,
    holdsBlockToken_text hsound.headerSealed]
  refine and_congr_right fun _ => ?_
  have hcontents : (stageInput .blocks latex).2.blocks.contents = l.blocks.map text := by
    rw [hshows.blocks]
    rfl
  constructor
  · intro hnone n content hcontent hlost
    rw [hcontents, List.getElem?_map] at hcontent
    obtain ⟨c, hc, rfl⟩ := Option.map_eq_some_iff.1 hcontent
    obtain ⟨hn, hget⟩ := List.getElem?_eq_some_iff.1 hc
    rw [holdsBlockToken_text (hsound.shelf.sealed_of_mem (List.mem_of_getElem? hc))]
    rintro htokens
    refine hnone ⟨n, hn, (blockLost_iff hshows hsound n).1 hlost, ?_⟩
    rwa [contentAt, hc]
  · rintro hall ⟨n, hn, hlost, htokens⟩
    have hget : l.blocks[n]? = some (contentAt l.blocks n) := by simp [contentAt, hn]
    have hnone := hall n (text (contentAt l.blocks n)) (by rw [hcontents, List.getElem?_map, hget]; rfl)
      ((blockLost_iff hshows hsound n).2 hlost)
    rw [holdsBlockToken_text (hsound.shelf.isSealed n hn)] at hnone
    exact hnone htokens

/-- No token is left of math that is displayed by itself. -/
theorem block_tokens_in_html_display :
    holdsBlockToken (convert "$$x$$".toList).html = false := by
  have hs : Sealed (stripDeclarations "$$x$$".toList) := by decide +kernel
  refine (block_tokens_in_html _ hs).2 ⟨by decide +kernel, fun n content hcontent _ => ?_⟩
  have hblocks : (stageInput .blocks "$$x$$".toList).2.blocks.contents = ["__MTH_0__".toList] := by
    decide +kernel
  rw [hblocks] at hcontent
  have hmem := List.mem_singleton.1 (List.mem_of_getElem? hcontent)
  rw [hmem]
  decide +kernel

/-- The header keeps the token of math that is displayed in a title. -/
theorem display_in_title_leaves_token :
    ¬ ∀ latex : Text, ¬ Draft.mathName <:+: latex → ¬ Draft.blockName <:+: latex →
      holdsBlockToken (convert latex).html = false := by
  intro h
  have hnone := h "\\title\x7b$$x$$\x7d".toList (by decide +kernel) (by decide +kernel)
  exact absurd hnone (by decide +kernel)

end LatexPreview
