import Mathlib
import LatexPreview.Proofs.Convert.PlainText
import LatexPreview.Proofs.Listings.Lifted
import LatexPreview.Proofs.Listings.Stages

/-!
# What is shown of a listing

A document that is a listing shows its code as it is, if nothing in the code is taken for something
else by the stages in front of the one for listings.  If nothing of it is taken out, it shows its code
in no other case: displayed math gets line breaks around it, math in math is not put back, math in
which there are characters of tags is put back as it is, and all that is formatted gets elements.

* `shownPage` is the page of a document with its math put back
* `countP_le_shownPage`: the page of a listing has all that has been taken out of it
* `Literal`: nothing in a listing is taken for something else
* `shownPage_listing_iff`: just then, the code is shown as it is
-/

namespace LatexPreview

open Pattern Script Text

/-! ## Pages -/

/-- The page of a document, with its math put back. -/
def shownPage (latex : Text) : Text := restoreTokens (convert latex).math (convert latex).html

section Lost

variable {math : PlaceholderTable} {html token : Text}

/-- Every token for math stands in the page or behind it. -/
theorem infix_append_lostTokens (htoken : token ∈ math.tokens) :
    token <:+: html ++ lostTokens math html := by
  by_cases hin : html.contains token = true
  · exact (contains_iff.1 hin).trans (List.prefix_append _ _).isInfix
  · have hlost : token ∈ math.tokens.filter (!html.contains ·) :=
      List.mem_filter.2 ⟨htoken, by simpa using hin⟩
    have hshown : token <:+: lostTokens math html := by
      rw [lostTokens]
      split
      · rename_i hnone
        exact absurd (hnone ▸ hlost) List.not_mem_nil
      · refine (infix_join [' '] hlost).trans ?_
        rw [paragraph, Html.styled, element_eq, List.append_cons]
        exact List.infix_append' _ _ _
    exact hshown.trans (List.suffix_append _ _).isInfix

theorem lostTokens_eq_nil (h : ∀ token ∈ math.tokens, token <:+: html) : lostTokens math html = [] := by
  have hnone : math.tokens.filter (!html.contains ·) = [] := by
    refine List.filter_eq_nil_iff.2 fun token htoken => ?_
    simp [contains_iff.2 (h token htoken)]
  rw [lostTokens, hnone]

end Lost

/-! ## Pages of listings -/

section Listings

variable {code latex : Text} {d : Draft} {q : Char → Bool}

variable (h : stageInput .verbatim latex = (listing code, d)) (hback : ¬ listingBack <:+: code)
  (hblock : d.blocks.name = Draft.blockName) (hmath : d.math.name = Draft.mathName)
  (hnone : ¬ Draft.mathName <:+: shownPage latex)

include h hback hblock

theorem shownPage_listing : shownPage latex =
    let html := d.header ++ (d.blocks.store (codeBlock code)).2.resolve (blockHole d.blocks.size)
    restoreTokens d.math.entries (html ++ lostTokens d.math html) := by
  rw [shownPage, convert_of_blocks (stageInput_blocks_listing h hback hblock)]

include hmath hnone

/-- The page of a listing has all that its code and what has been taken out of it have of some
characters, unless a name of a token is left. -/
theorem countP_le_shownPage (hq : ∀ c, TokenChar c → q c = false) :
    (codeBlock code).countP q + (d.blocks.contents.map (·.countP q)).sum +
      (d.math.contents.map (·.countP q)).sum ≤ (shownPage latex).countP q := by
  let blocks := (d.blocks.store (codeBlock code)).2
  let html := d.header ++ blocks.resolve (blockHole d.blocks.size)
  have hresolve : (codeBlock code).countP q + (d.blocks.contents.map (·.countP q)).sum ≤
      (html ++ lostTokens d.math html).countP q := by
    have hname : blocks.name = Draft.blockName := hblock
    have hcount := PlaceholderTable.countP_resolve (t := blocks) (hname ▸ by decide)
      (by rw [hname]; exact offTokens_of_tokenChar hq .block) (blockHole d.blocks.size)
    have hcontents : blocks.contents = d.blocks.contents ++ [codeBlock code] := rfl
    simp only [html, List.countP_append, hcount, hcontents, List.map_append, List.map_singleton,
      List.sum_append, List.sum_singleton]
    omega
  have htokens : ∀ n < d.math.size, placeholder Draft.mathName n <:+: html ++ lostTokens d.math html :=
    fun n hn => infix_append_lostTokens (List.mem_map.2 ⟨n, List.mem_range.2 hn, by rw [hmath]⟩)
  rw [shownPage_listing h hback hblock] at hnone ⊢
  have hrestored := countP_le_restoreTokens (offTokens_of_tokenChar hq .math) hmath htokens hnone
  exact (Nat.add_le_add_right hresolve _).trans hrestored

/-- No math that has been stored holds a name of a token, unless one is left. -/
theorem not_name_source {source : Text} (hsource : source ∈ d.math.contents) :
    ¬ Draft.mathName <:+: source := by
  obtain ⟨n, hn⟩ := List.getElem?_of_mem hsource
  obtain ⟨hlt, -⟩ := List.getElem?_eq_some_iff.1 hn
  have htoken : placeholder Draft.mathName n ∈ d.math.tokens :=
    List.mem_map.2 ⟨n, List.mem_range.2 hlt, by rw [hmath]⟩
  have hlookup : d.math.entries.lookup (placeholder Draft.mathName n) = some source := by
    rw [← hn, ← d.math.lookup_entries, hmath]
  rw [shownPage_listing h hback hblock] at hnone
  exact fun hi => hnone (hi.trans
    ((exists_hit_of_restored hnone (infix_append_lostTokens htoken)).2 source hlookup))

/-- If the page is nothing but a block of code, no math that has been stored has characters of tags. -/
theorem not_mem_source {shown : Text} (hpage : shownPage latex = codeBlock shown) {source : Text}
    (hsource : source ∈ d.math.contents) : '<' ∉ source ∧ '>' ∉ source := by
  have hcount : ∀ e ∈ ['<', '>'], (escapeCode shown).count e = 0 → e ∉ source := by
    intro e he hescaped
    have hoff : ∀ e ∈ ['<', '>'], ¬ TokenChar e := by simp [TokenChar]
    have hle := countP_le_shownPage h hback hblock hmath hnone (q := (· == e))
      fun d hd => beq_eq_false_iff_ne.2 fun heq => hoff e he (heq ▸ hd)
    rw [hpage, countP_codeBlock, countP_codeBlock _ shown,
      show (escapeCode shown).countP (· == e) = 0 from hescaped] at hle
    have hsum : (d.math.contents.map (·.countP (· == e))).sum = 0 := by omega
    exact List.count_eq_zero.1 (List.sum_eq_zero_iff.1 hsum _ (List.mem_map_of_mem hsource))
  have hnot : '<' ∉ escapeCode shown ∧ '>' ∉ escapeCode shown := not_mem_escapeCode
  exact ⟨hcount '<' (by simp) (List.count_eq_zero.2 hnot.1),
    hcount '>' (by simp) (List.count_eq_zero.2 hnot.2)⟩

end Listings

/-! ## Listings that are shown as they are -/

/-- The formatting that does not know of listings: within lines, and of headings. -/
def formattingRules : List InlineRule := inlineRules ++ [headingRule]

/-- Neither the preamble nor the header takes anything out of the listing. -/
structure Untaken (code : Text) : Prop where
  declarations : stripDeclarations (listing code) = listing code
  header : ∀ p ∈ Stage.header.patterns, p.occursIn (lifted (listing code)).1 = false

/-- Nothing in the listing is taken for something else: none of its math is displayed, holds other math
or has characters of tags, and around this math there is nothing to be formatted. -/
structure Literal (code : Text) : Prop where
  inLine : (lifted (listing code)).2.blocks.contents = []
  unnested : ∀ source ∈ (lifted (listing code)).2.math.contents, ¬ Draft.mathName <:+: source
  untagged : ∀ source ∈ (lifted (listing code)).2.math.contents, '<' ∉ source ∧ '>' ∉ source
  unformatted : ∀ rule ∈ formattingRules, rule.pattern.occursIn (lifted (listing code)).1 = false

instance (code : Text) : Decidable (Untaken code) :=
  decidable_of_iff (_ ∧ _) ⟨fun h => ⟨h.1, h.2⟩, fun h => ⟨h.declarations, h.header⟩⟩

instance (code : Text) : Decidable (Literal code) :=
  decidable_of_iff (_ ∧ _ ∧ _ ∧ _) ⟨fun h => ⟨h.1, h.2.1, h.2.2.1, h.2.2.2⟩,
    fun h => ⟨h.inLine, h.unnested, h.untagged, h.unformatted⟩⟩

section Stages

variable {code : Text}

theorem Untaken.stageInput_inline (h : Untaken code) :
    stageInput .inline (listing code) = lifted (listing code) := by
  have hmath : stageInput .header (listing code) = lifted (listing code) := by
    rw [stageInput_next .math .header (by decide), stageInput_math, h.declarations, lifted]
    rfl
  have hpasses : ∀ p ∈ Stage.header.patterns, p.Passes (lifted (listing code)).1 := by
    intro p hp
    refine (passes_iff ?_).2 (h.header p hp)
    rcases Stage.opens_of_mem_patterns hp with hopens | hopens
    · exact hopens.consumes
    · exact hopens.consumes
  rw [stageInput_next .header .inline (by decide), hmath]
  exact extractHeader_run hpasses _

/-- The two stages of formatting are one row of rules. -/
theorem Untaken.stageInput_verbatim (h : Untaken code) : stageInput .verbatim (listing code) =
    (formattingRules.foldlM (fun s rule => rule.pattern.replaceM rule.format s)
      (lifted (listing code)).1 : Drafting Text).run (lifted (listing code)).2 := by
  rw [stageInput_next .sections .verbatim (by decide), stageInput_next .inline .sections (by decide),
    h.stageInput_inline, formattingRules, List.foldlM_append, Drafting.run_bind]
  simp only [List.foldlM_cons, List.foldlM_nil, bind_pure]
  rfl

theorem swells_formattingRules {rule : InlineRule} (hrule : rule ∈ formattingRules) : rule.Swells := by
  rw [formattingRules, List.mem_append, List.mem_singleton] at hrule
  rcases hrule with hrule | rfl
  · exact swells_inlineRules hrule
  · exact swells_heading

theorem passes_formattingRule {rule : InlineRule} (hrule : rule ∈ formattingRules) {s : Text} :
    rule.pattern.Passes s ↔ rule.pattern.occursIn s = false := by
  obtain ⟨c, -, hopens⟩ := (swells_formattingRules hrule).stays.opens
  exact passes_iff hopens.consumes

theorem Untaken.math_eq (h : Untaken code) :
    (stageInput .verbatim (listing code)).2.math = (lifted (listing code)).2.math := by
  have hgrows : ∀ rule ∈ formattingRules, ∀ h, Drafting.GrowsBlocks (rule.format h) := by
    intro rule hrule
    rw [formattingRules, List.mem_append, List.mem_singleton] at hrule
    rcases hrule with hrule | rfl
    · exact growsBlocks_inlineRule hrule
    · exact fun _ => Drafting.growsBlocks_addBlock _
  rw [h.stageInput_verbatim]
  exact (Drafting.growsBlocks_foldlM
    (fun rule hrule => Drafting.growsBlocks_replaceM (hgrows rule hrule)) _ _).math

/-- Without formatting, the stage for listings is given what is left of the listing. -/
theorem Untaken.stageInput_verbatim_eq (h : Untaken code)
    (hnone : ∀ rule ∈ formattingRules, rule.pattern.Passes (lifted (listing code)).1) :
    stageInput .verbatim (listing code) = lifted (listing code) := by
  rw [h.stageInput_verbatim]
  exact foldlM_run_eq (fun rule hrule => (hnone rule hrule).replaceM_run) _

end Stages

section Shown

variable {code : Text}

/-- Code that is taken for nothing else is shown as it is. -/
theorem Literal.shownPage_eq (h : Literal code) (huntaken : Untaken code)
    (hback : ¬ listingBack <:+: code) (hname : ∀ kind : TokenKind, ¬ kind.name <:+: code) :
    shownPage (listing code) = codeBlock code := by
  obtain ⟨g, hg⟩ := exists_liftedCode hback hname h.inLine h.unnested
  have hinput : stageInput .verbatim (listing code) =
      (listing (text g), (lifted (listing code)).2) := by
    rw [huntaken.stageInput_verbatim_eq fun rule hrule =>
      (passes_formattingRule hrule).2 (h.unformatted rule hrule), ← hg.text]
  generalize hd : (lifted (listing code)).2 = d at hinput
  have hnames : d.blocks.name = Draft.blockName ∧ d.math.name = Draft.mathName := by
    have hlifting := lifting_lifted (listing code)
    exact hd ▸ ⟨hlifting.blockName, hlifting.mathName⟩
  have hnoBlock : ¬ Draft.blockName <:+: text g := fun hi => by
    refine hg.names .block (infix_plain_of_text (by decide) (by decide) (fun t ht c hc => ?_) hi)
    have hchars : ∀ c ∈ ['B', 'L', 'K'], c ≠ '_' ∧ c ∉ ['M', 'T', 'H'] ∧ c.isDigit = false := by simp
    obtain ⟨hlow, hletter, hdigit⟩ := hchars c hc
    have hmath : t.text = placeholder Draft.mathName t.number := by rw [Token.text, hg.math t ht]; rfl
    rw [hmath]
    exact not_mem_placeholder hlow hletter hdigit _
  have hresolve : (d.blocks.store (codeBlock (text g))).2.resolve (blockHole d.blocks.size) =
      text (codeScript g) := by
    have hempty : d.blocks = .empty Draft.blockName := by
      have hcontents : d.blocks.contents = [] := hd ▸ h.inLine
      rw [PlaceholderTable.empty, ← hnames.1, ← hcontents]
    rw [text_codeScript, hempty]
    exact resolve_single (by decide) (not_name_codeBlock (show ¬ TokenKind.block.name <:+: text g from hnoBlock))
  have hlost : lostTokens d.math (text (codeScript g)) = [] := by
    refine lostTokens_eq_nil fun token htoken => ?_
    obtain ⟨n, hn, rfl⟩ := List.mem_map.1 htoken
    have hmem := hg.all n (hd ▸ List.mem_range.1 hn)
    rw [hnames.2]
    exact infix_text_of_mem (t := ⟨.math, n⟩) (by rwa [tokens_codeScript])
  have hheader : d.header = [] := hd ▸ header_lifted _
  rw [shownPage_listing hinput hg.back hnames.1]
  simp only [hheader, List.nil_append, hresolve, hlost, List.append_nil]
  rw [restoreTokens_text (by rw [plain_codeScript]; exact not_name_codeBlock (hg.names .math)),
    restored_codeScript ?_, ← hd, hg.restored]
  intro e he
  exact h.untagged e.2 (hd ▸ (List.of_mem_zip he).2)

/-- Code that is shown as it is weighs what it weighs on the page, so that nothing has been added: no
block, and no formatting. -/
theorem Untaken.unformatted (huntaken : Untaken code) (hback : ¬ listingBack <:+: code)
    (hname : ¬ Draft.mathName <:+: shownPage (listing code))
    (h : shownPage (listing code) = codeBlock code) : (lifted (listing code)).2.blocks.size = 0 ∧
      ∀ rule ∈ formattingRules, rule.pattern.Passes (lifted (listing code)).1 := by
  have hweighed := weighed_lifted ⟨code, rfl, hback⟩
  have hatLeast : AtLeast (weight code + 4 * (lifted (listing code)).2.blocks.size)
      (lifted (listing code)).2 (lifted (listing code)).1 := by
    refine ⟨hweighed.blockName, hweighed.isListing, ?_⟩
    rw [hweighed.weight_eq, weight_listing]
  obtain ⟨hformatted, hall⟩ := foldlM_swells (fun _ => swells_formattingRules) hatLeast
  rw [← huntaken.stageInput_verbatim] at hformatted hall
  have hweight : (stageInput .verbatim (listing code)).2.weight
      (stageInput .verbatim (listing code)).1 ≤ weight code := by
    obtain ⟨c, hc, hcback⟩ := hformatted.isListing
    have hle : weight (codeBlock c) +
        ((stageInput .verbatim (listing code)).2.blocks.contents.map weight).sum +
          ((stageInput .verbatim (listing code)).2.math.contents.map weight).sum ≤
            weight (shownPage (listing code)) :=
      countP_le_shownPage (Prod.ext hc rfl) hcback hformatted.blockName
        (huntaken.math_eq ▸ hweighed.mathName) hname fun _ => weighs_of_tokenChar
    rw [h, weight_codeBlock, weight_codeBlock code] at hle
    rw [hc, Draft.weight, weight_listing]
    omega
  have hleast := hformatted.le_weight
  exact ⟨by omega, hall (by omega)⟩

/-- Code that is shown as it is has been taken for nothing else. -/
theorem literal_of_shownPage (huntaken : Untaken code) (hback : ¬ listingBack <:+: code)
    (hname : ∀ kind : TokenKind, ¬ kind.name <:+: code)
    (h : shownPage (listing code) = codeBlock code) : Literal code := by
  have hnone : ¬ Draft.mathName <:+: shownPage (listing code) := by
    rw [h]
    exact not_name_codeBlock (hname .math)
  obtain ⟨hsize, hpasses⟩ := huntaken.unformatted hback hnone h
  have hweighed := weighed_lifted ⟨code, rfl, hback⟩
  obtain ⟨c, hc, hcback⟩ := hweighed.isListing
  have hinput : stageInput .verbatim (listing code) = (listing c, (lifted (listing code)).2) := by
    rw [huntaken.stageInput_verbatim_eq hpasses, ← hc]
  exact ⟨List.length_eq_zero_iff.1 hsize,
    fun _ => not_name_source hinput hcback hweighed.blockName hweighed.mathName hnone,
    fun _ => not_mem_source hinput hcback hweighed.blockName hweighed.mathName hnone h,
    fun rule hrule => (passes_formattingRule hrule).1 (hpasses rule hrule)⟩

/-- The code of a listing of which nothing is taken out is shown as it is if and only if nothing in it is
taken for something else. -/
theorem shownPage_listing_iff (hback : ¬ listingBack <:+: code)
    (hname : ∀ kind : TokenKind, ¬ kind.name <:+: code) (huntaken : Untaken code) :
    shownPage (listing code) = codeBlock code ↔ Literal code :=
  ⟨literal_of_shownPage huntaken hback hname, fun h => h.shownPage_eq huntaken hback hname⟩

/-- Characters of tags, math in a line and commands that are not formatted. -/
theorem shownPage_listing_iff_commands :
    shownPage (listing "\\item<b> $x$\n\\relax\x7b\x7d".toList) =
      codeBlock "\\item<b> $x$\n\\relax\x7b\x7d".toList := by
  have hname : ∀ kind : TokenKind, ¬ kind.name <:+: "\\item<b> $x$\n\\relax\x7b\x7d".toList := by
    intro kind
    cases kind <;> decide
  exact (shownPage_listing_iff (by decide) hname (by decide +kernel)).2 (by decide +kernel)

/-- A command that is formatted within lines is formatted in code, too, and shown as its elements. -/
theorem command_in_listing_is_formatted :
    ¬ ∀ code : Text, ¬ listingBack <:+: code → (∀ kind : TokenKind, ¬ kind.name <:+: code) →
      shownPage (listing code) = codeBlock code := by
  intro h
  have hname : ∀ kind : TokenKind, ¬ kind.name <:+: "\\textbf\x7bx\x7d".toList := by
    intro kind
    cases kind <;> decide
  exact absurd (h "\\textbf\x7bx\x7d".toList (by decide) hname) (by decide +kernel)

end Shown

end LatexPreview
