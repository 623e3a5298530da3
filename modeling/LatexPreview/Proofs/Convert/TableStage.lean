import Mathlib
import LatexPreview.Convert.Tables
import LatexPreview.Proofs.Convert.Shelves
import LatexPreview.Proofs.Tables.Rules

/-!
# Tables

The rows and cells of a table share the tokens of its source.  A table with a caption shows
three parts of its content: the caption, the rows, and what is left when both are taken out.
These parts overlap only where a caption stands within the rows or reaches out of them.

* `renders_tableHtml`: rows and cells spare tokens
* `RepeatsCaption`: the caption shows a token that is shown elsewhere, too
* `exists_tableParts`: rows and remaining text do not overlap
* `kept_formatTables`: the stage keeps sound layouts, if no caption repeats a wanted token
-/

namespace LatexPreview

open Script Pattern

variable {wanted : Nat → Prop}

/-! ## Rows and cells -/

theorem narrows_eraseRules : Narrows rulePattern.erase := by
  have hclose : ∀ w : Text, (lit (w ++ ['e'])).ClosesIn ['e', '}'] :=
    fun w => (closesIn_lit w 'e').mono (by simp)
  have hbrace : (command "cline" ++ looseArgument).ClosesIn ['e', '}'] :=
    (((closesIn_one '}').prepend _).prepend _).mono (by simp)
  have hcloses : rulePattern.ClosesIn ['e', '}'] :=
    (hclose "\\hlin".toList).alt (hbrace.alt ((hclose "\\toprul".toList).alt
      ((hclose "\\midrul".toList).alt (hclose "\\bottomrul".toList))))
  have hlead : ∀ name : String, '\\' :: name.toList ∈ takenOut → (command name).Leads takenOut :=
    fun name hname => (leads_command name).mono (by simpa using hname)
  have hleads : rulePattern.Leads takenOut :=
    (hlead "hline" (by decide)).alt (((hlead "cline" (by decide)).append _).alt
      ((hlead "toprule" (by decide)).alt
        ((hlead "midrule" (by decide)).alt (hlead "bottomrule" (by decide)))))
  exact narrows_erase opens_rulePattern hleads hcloses (by simp [Edge, TokenChar])

theorem divides_tableRows : Divides tableRows := by
  have hrows : (word "\\\\").Sharp :=
    ⟨⟨'\\', by decide, opens_rowBreak⟩, ['\\'], by simp [TokenChar], closesIn_lit ['\\'] '\\'⟩
  have hspacing : Narrows rowSpacing.eraseFront :=
    narrows_eraseFront ((closesIn_one ']').prepend _) (by simp [TokenChar])
  have hrow : Narrows fun row => (rowSpacing.eraseFront row.trim).trim :=
    narrows_trim.comp (hspacing.comp narrows_trim)
  exact (((divides_split hrows.severs).comp narrows_eraseRules).map hrow).filter _

theorem divides_rowCells : Divides rowCells := by
  have hcells : cellSeparator.Sharp :=
    ⟨⟨'&', by decide, opens_cellSeparator⟩, ['&'], by simp [TokenChar],
      (closesIn_one '&').prepend _⟩
  exact (divides_split hcells.severs).map narrows_trim

theorem renders_rowHtml {tag style : String} (htag : Quiet tag.toList)
    (hstyle : Quiet style.toList) : Renders (rowHtml tag style) := by
  have hrow : Renders (Html.element "tr" []) := renders_element (by decide) (by decide)
  exact hrow.comp (divides_rowCells.flatMap (renders_styled htag hstyle))

theorem narrows_rowsHtml : Narrows fun source => rowsHtml (tableRows source) := by
  intro g hg
  obtain ⟨rows, htexts, htokens, hrows⟩ := divides_tableRows g hg
  have hhead : Renders (rowHtml "th" Style.headCell) :=
    renders_rowHtml (by decide) (by decide +kernel)
  have hcell : Renders (rowHtml "td" Style.cell) := renders_rowHtml (by decide) (by decide)
  simp only [← htexts]
  cases rows with
  | nil => exact ⟨[], rfl, by simp, sealed_nil⟩
  | cons first more =>
    obtain ⟨b, htext, hfirst, hfits⟩ := hhead first (hrows first (by simp))
    have hrest : ∀ x ∈ more, Sealed (plain x) := fun x hx => hrows x (by simp [hx])
    obtain ⟨b', htext', hmore, hsealed⟩ := hcell.flatMap hrest
    refine ⟨b ++ b', by simp [htext, htext', rowsHtml], ?_, hfits.append_sealed hsealed⟩
    rw [tokens_append]
    refine (hfirst.append hmore).trans ?_
    simpa using htokens

/-- The rows of a source behind a caption. -/
theorem renders_tableHtml {source caption : Script} (hsource : Sealed (plain source))
    (hcaption : Sealed (plain caption)) :
    ∃ b, text b = tableHtml (text source) (text caption) ∧
      (tokens b).Sublist (tokens caption ++ tokens source) ∧ Fits b := by
  have hbody : Renders fun source => Html.element "tbody" [] (rowsHtml (tableRows source)) :=
    (renders_element (by decide) (by decide)).comp narrows_rowsHtml
  have htable : Renders (Html.styled "table" Style.table) :=
    renders_styled (by decide) (by decide)
  have hframe : Renders (Html.styled "div" Style.tableFrame) :=
    renders_styled (by decide) (by decide)
  obtain ⟨b, htext, htokens, hsealed, hcapped⟩ := hbody source hsource
  have hboth : Sealed (plain (caption ++ b)) := by
    have hfit := (sealed_append_capped (a := plain caption) (b := []) hcapped).2
      ⟨hcaption, hsealed, sealed_nil⟩
    simpa using hfit
  obtain ⟨b', htext', htokens', hfits⟩ := hframe.comp htable.narrows _ hboth
  refine ⟨b', by rw [htext', text_append, htext]; rfl, htokens'.trans ?_, hfits⟩
  rw [tokens_append]
  exact (List.Sublist.refl _).append htokens

/-! ## Captions -/

/-- The caption of a table shows a token that is also shown in its rows or in what is left when
rows and caption are taken out. -/
def RepeatsCaption (content token : Text) : Prop :=
  ∃ c ∈ captionPattern.find? content, ∃ t ∈ tabularPattern.find? content,
    token <:+: c.get "text" ∧
      (token <:+: t.get "body" ∨
        token <:+: captionPattern.eraseFirst (tabularPattern.eraseFirst content))

instance (content token : Text) : Decidable (RepeatsCaption content token) :=
  inferInstanceAs (Decidable (∃ c ∈ captionPattern.find? content, _))

/-- The caption in the content of a table; empty if there is none. -/
def captionHtml (content : Text) : Text :=
  match captionPattern.find? content with
  | some h => Html.styled "caption" Style.caption (h.get "text")
  | none => []

/-- A caption is a line of its content, so it has tokens for math only. -/
theorem exists_captionScript {g : Script} (hg : Sealed (plain g)) (hpadded : Padded g) :
    ∃ b, text b = captionHtml (text g) ∧ Sealed (plain b) ∧ (tokens b).Sublist (tokens g) ∧
      ∀ t ∈ tokens b, t.kind = .math ∧
        ∃ h ∈ captionPattern.find? (text g), t.text <:+: h.get "text" := by
  rw [captionHtml]
  split
  · rename_i h hfind
    obtain ⟨hs, hf⟩ := find?_eq_some hfind
    obtain ⟨x, hfirst⟩ := ((opens_command "caption").append _).found hf
    obtain ⟨y, e, he, hlast⟩ := ((closesIn_argument "text").prepend _).found hf
    obtain rfl := List.mem_singleton.1 he
    obtain ⟨gf, gm, gr, rfl, -, hgm, -, hopen, -⟩ := split_part hs hfirst (by decide) hlast (by decide)
    have hpart : gm <:+: gf ++ gm ++ gr := ⟨gf, gr, rfl⟩
    obtain ⟨ga, hga, hsealed, hmath, hsub⟩ :=
      argument_script hf hgm (hg.mono (plain_isInfix hpart)) (hpadded.part hopen (by decide))
    have hcaption : Renders (Html.styled "caption" Style.caption) :=
      renders_styled (by decide) (by decide)
    obtain ⟨b, htext, htokens, hfits⟩ := hcaption ga hsealed
    refine ⟨b, by rw [htext, hga], hfits.1,
      htokens.trans (hsub.trans (tokens_sublist hpart.sublist)), fun t ht => ?_⟩
    have hin := htokens.subset ht
    exact ⟨hmath t hin, h, hfind, hga ▸ (infix_text hsealed t).2 hin⟩
  · exact ⟨[], rfl, sealed_nil, by simp, by simp⟩

/-! ## Tables with captions -/

theorem opens_tabular : tabularPattern.Opens '\\' :=
  (((opens_opening "tabular").append _).append _).append _

theorem closesIn_tabular : tabularPattern.ClosesIn ['}'] := (closesIn_closing "tabular").prepend _

theorem leads_tabular : tabularPattern.Leads takenOut :=
  (((leads_opening "tabular").mono (by decide)).append _).append _ |>.append _

theorem frames_tabular : tabularPattern.Frames "body" :=
  frames_body ((closesIn_longArgument "columns").prepend _) (by simp) (opens_closing "tabular")
    (bare_lit _)

/-- The rows of a table and what is left when rows and caption are taken out. -/
structure TableParts (g rows rest : Script) : Prop where
  rowsSealed : Sealed (plain rows)
  restSealed : Sealed (plain rest)
  count_le : ∀ t, (tokens rows).count t + (tokens rest).count t ≤ (tokens g).count t

theorem exists_tableParts {g : Script} (hg : Sealed (plain g)) {h : Hit}
    (hfind : tabularPattern.find? (text g) = some h) :
    ∃ rows rest, text rows = h.get "body" ∧
      text rest = captionPattern.eraseFirst (tabularPattern.eraseFirst (text g)) ∧
      TableParts g rows rest := by
  rw [eraseFirst_of_find? hfind]
  obtain ⟨hs, hf⟩ := find?_eq_some hfind
  obtain ⟨x, hfirst⟩ := opens_tabular.found hf
  obtain ⟨y, e, he, hlast⟩ := closesIn_tabular.found hf
  obtain rfl := List.mem_singleton.1 he
  obtain ⟨gf, gm, gr, rfl, hgf, hgm, hgr, -, -⟩ :=
    split_part hs hfirst (by decide) hlast (by decide)
  have hdeleted : Sealed (plain (gf ++ gr)) := sealed_of_deleted (hgm ▸ leads_tabular.found hf) hg
  obtain ⟨gu, c, rows, d, gv, rfl, hrows, -⟩ := frames_script frames_tabular hf hgm
  obtain ⟨rest, hrest, herased⟩ := eraseFirst_script (p := captionPattern)
    ((opens_command "caption").append _) (((leads_command "caption").mono (by decide)).append _)
    ((closesIn_argument "text").prepend _) (by simp [Edge, TokenChar]) hdeleted
  refine ⟨rows, rest, hrows, by rw [← hgf, ← hgr, ← text_append, hrest], ?_⟩
  have hpart : rows <:+: gf ++ (gu ++ .char c :: (rows ++ .char d :: gv)) ++ gr :=
    ⟨gf ++ gu ++ [.char c], .char d :: gv ++ gr, by simp⟩
  refine ⟨hg.mono (plain_isInfix hpart), herased.isSealed, fun t => ?_⟩
  have hle := (tokens_sublist herased.sublist).count_le t
  simp only [tokens_append, tokens_char, List.count_append] at hle ⊢
  omega

/-- A table and what is left next to it show a token once, if the caption shows none of theirs. -/
theorem TableParts.within {g rows rest caption b : Script} {watched : Token → Prop}
    (h : TableParts g rows rest) (hcaption : (tokens caption).Sublist (tokens g))
    (hb : (tokens b).Sublist (tokens caption ++ tokens rows))
    (hapart : ∀ t ∈ tokens caption, watched t → t ∉ tokens rows ∧ t ∉ tokens rest) :
    Within watched (tokens b ++ tokens rest) (tokens g) := by
  refine ⟨fun t ht => ?_, fun t ht => ?_⟩
  · have hle := hb.count_le t
    have hsum := h.count_le t
    simp only [List.count_append] at hle ⊢
    by_cases hin : t ∈ tokens caption
    · obtain ⟨hrows, hrest⟩ := hapart t hin ht
      have hcount := hcaption.count_le t
      rw [List.count_eq_zero.2 hrows] at hle
      rw [List.count_eq_zero.2 hrest]
      omega
    · rw [List.count_eq_zero.2 hin] at hle
      omega
  · have hcount := h.count_le t
    have hpart : t ∈ tokens rows ∨ t ∈ tokens rest → t ∈ tokens g := by
      rw [← List.count_pos_iff, ← List.count_pos_iff, ← List.count_pos_iff]
      omega
    rcases List.mem_append.1 ht with ht | ht
    · rcases List.mem_append.1 (hb.subset ht) with ht | ht
      · exact hcaption.subset ht
      · exact hpart (.inl ht)
    · exact hpart (.inr ht)

/-- The blocks for a table and its caption. -/
theorem shelves_wholeTable {g : Script} (hg : Sealed (plain g)) (hpadded : Padded g)
    (hfree : ∀ n, wanted n → ¬ RepeatsCaption (text g) (placeholder Draft.mathName n)) :
    Shelves wanted (tokens g) 1 (wholeTable (text g)) := by
  cases hfind : tabularPattern.find? (text g) with
  | none =>
    simp only [wholeTable, hfind]
    exact shelves_addBlock (renders_styled (by decide) (by decide)) hg
  | some h =>
    have hrun : wholeTable (text g) = (do
        let table ← addBlock (tableHtml (h.get "body") (captionHtml (text g)))
        let note ← paragraphBlock (captionPattern.eraseFirst (tabularPattern.eraseFirst (text g)))
        pure (table ++ note)) := by
      simp only [wholeTable, hfind]
      rfl
    rw [hrun]
    obtain ⟨caption, hcaption, hsealed, hsub, hmath⟩ := exists_captionScript hg hpadded
    obtain ⟨rows, rest, hrows, hrest, hparts⟩ := exists_tableParts hg hfind
    obtain ⟨b, htext, htokens, hfits⟩ := renders_tableHtml hparts.rowsSealed hsealed
    rw [← hrows, ← hcaption, ← htext, ← hrest]
    refine ((Shelves.addBlock hfits).seq (shelves_paragraphBlock hparts.restSealed)).mono ?_
    refine hparts.within hsub htokens fun t hin ht => ?_
    obtain ⟨hkind, c, hc, hoccurs⟩ := hmath t hin
    have hshown : t.text = placeholder Draft.mathName t.number := by
      rw [Token.text, hkind]
      rfl
    have hnone := hfree t.number (ht hkind)
    rw [← hshown] at hnone
    exact ⟨fun hmem => hnone ⟨c, hc, h, hfind, hoccurs,
        .inl (hrows ▸ (infix_text hparts.rowsSealed t).2 hmem)⟩,
      fun hmem => hnone ⟨c, hc, h, hfind, hoccurs,
        .inr (hrest ▸ (infix_text hparts.restSealed t).2 hmem)⟩⟩

/-! ## The stage -/

/-- The contents of the tables in a text. -/
def tableContents (s : Text) : List Text := (tablePattern.cut s).hits.map (·.get "body")

theorem kept_wholeTables {d : Draft} {s : Text} (h : Kept wanted d s)
    (hfree : ∀ n, wanted n → ∀ content ∈ tableContents s,
      ¬ RepeatsCaption content (placeholder Draft.mathName n)) :
    Kept wanted ((tablePattern.replaceM (fun h => wholeTable (h.get "body")) s).run d).2
      ((tablePattern.replaceM (fun h => wholeTable (h.get "body")) s).run d).1 := by
  have hspec : (opening "table" ++
      optional (one (· == '[') ++ many (noneOf "]") ++ one (· == ']'))).ClosesIn ['}', ']'] :=
    ((closesIn_opening _).mono (by simp)).optional
      (((closesIn_one ']').prepend _).mono (by simp))
  have hframes : tablePattern.Frames "body" :=
    frames_body hspec (by simp) (opens_closing "table") (bare_lit _)
  refine h.replaceM opens_tablePattern (by decide) ((closesIn_closing "table").prepend _)
    (by simp [Edge, TokenChar]) fun hit hhit hf g hg hsealed hpadded => ?_
  obtain ⟨gu, c, ga, d, gv, rfl, hga, hc⟩ := frames_script hframes hf hg
  have hpart : ga <:+: gu ++ .char c :: (ga ++ .char d :: gv) :=
    ⟨gu ++ [.char c], .char d :: gv, by simp⟩
  have hcontent : hit.get "body" ∈ tableContents s := List.mem_map_of_mem hhit
  have htable := shelves_wholeTable (hsealed.mono (plain_isInfix hpart))
    (hpadded.right hc).left fun n hn => hga ▸ hfree n hn _ hcontent
  rw [← hga]
  exact (htable.mono (.of_sublist (tokens_sublist hpart.sublist))).yields

theorem kept_bareTables {d : Draft} {s : Text} (h : Kept wanted d s) :
    Kept wanted ((tabularPattern.replaceM (fun h => addBlock (tableHtml (h.get "body") [])) s).run d).2
      ((tabularPattern.replaceM (fun h => addBlock (tableHtml (h.get "body") [])) s).run d).1 := by
  have htable : Renders (tableHtml · []) := by
    intro g hg
    have hnone : Sealed (plain []) := sealed_nil
    simpa using renders_tableHtml hg hnone
  exact h.replaceM opens_tabular (by decide) closesIn_tabular (by simp [Edge, TokenChar])
    fun hit _ hf g hg hsealed _ => yields_part frames_tabular hf hg hsealed htable

/-- Making blocks of tables keeps a layout sound, if no caption repeats a wanted token. -/
theorem kept_formatTables {d : Draft} {s : Text} (h : Kept wanted d s)
    (hfree : ∀ n, wanted n → ∀ content ∈ tableContents s,
      ¬ RepeatsCaption content (placeholder Draft.mathName n)) :
    Kept wanted ((formatTables s).run d).2 ((formatTables s).run d).1 := by
  have htables := kept_wholeTables h hfree
  rw [formatTables, Drafting.run_bind]
  exact kept_bareTables htables

end LatexPreview
