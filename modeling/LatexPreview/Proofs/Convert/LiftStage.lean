import Mathlib
import LatexPreview.Proofs.Convert.LiftedMath
import LatexPreview.Proofs.Convert.Shelves

/-!
# Lifting math and taking the header out

The first stages behind the preamble.  A document without tokens is a sound layout; lifting
math makes fresh tokens, and the header takes its parts out of the text.

* `kept_fresh`: a sealed document is sound at the start
* `kept_liftMath`, `kept_extractHeader`: the two stages keep sound layouts
-/

namespace LatexPreview

open Script Pattern

variable {wanted : Nat → Prop}

/-! ## Math -/

theorem kept_fresh {s : Text} (hs : Sealed s) : Kept wanted .fresh s := by
  refine ⟨⟨ofText s, [], [], 0⟩, ⟨by simp, rfl, rfl, rfl, rfl⟩, ?_, padded_of_math (by simp)⟩
  exact ⟨by simpa using hs, sealed_nil, .inl rfl,
    ⟨fun n hn => absurd hn (by simp), fun n hn => absurd hn (by simp),
      fun n m hm => absurd hm (by simp [contentAt])⟩,
    by simp [Layout.everything], by simp [Layout.everything]⟩

/-- A lifted span becomes a fresh token, in the text or in a block of its own. -/
theorem yields_liftSpan (source : List Token) (place : MathPlace) (span : Text) :
    Yields wanted source (liftSpan place span) := by
  intro d hmath hblock
  have hlow : Sealed ['_'] ∧ Capped ['_'] := by
    refine ⟨?_, capped_singleton (by decide)⟩
    exact (show Quiet ['_'] by decide).sealed
  cases place with
  | inline =>
    refine ⟨[.token ⟨.math, d.math.size⟩], [], [⟨.math, d.math.size⟩], ?_⟩
    exact {
      text := by
        rw [show ((liftSpan .inline span).run d).1 = placeholder d.math.name d.math.size from rfl,
          hmath]
        simp [Token.text, TokenKind.name]
      header := rfl
      blocks := by simp; rfl
      mathName := rfl
      maths := by simp [liftSpan_math, PlaceholderTable.size]
      newSealed := hlow.1
      newCapped := hlow.2
      newPadded := padded_of_math (by simp)
      fits := by simp
      mentions := by simp
      within := by simpa using Within.of_sublist (by simp)
      nodup := by simp
      stored := by simp [StoredBetween, liftSpan_math, PlaceholderTable.size] }
  | block =>
    refine ⟨paddedTokens d.blocks.size 1, [[.token ⟨.math, d.math.size⟩]],
      [blockToken d.blocks.size, ⟨.math, d.math.size⟩], ?_⟩
    have hblocks : ((liftSpan .block span).run d).2.blocks =
        ⟨d.blocks.name, d.blocks.contents ++ [placeholder d.math.name d.math.size]⟩ := rfl
    exact {
      text := by
        have hrun : ((liftSpan .block span).run d).1 =
            "\n\n".toList ++ placeholder d.blocks.name d.blocks.size ++ "\n\n".toList := rfl
        rw [hrun, hblock]
        simp [paddedTokens, Token.text, blockToken, TokenKind.name]
      header := rfl
      blocks := by
        rw [hblocks, hmath]
        simp [Token.text, TokenKind.name]
      mathName := rfl
      maths := by simp [liftSpan_math, PlaceholderTable.size]
      newSealed := (quiet_paddedTokens _ _).sealed
      newCapped := capped_paddedTokens _ 0
      newPadded := padded_paddedTokens _ _
      fits := by
        intro b hb
        rw [List.mem_singleton.1 hb]
        exact hlow
      mentions := by simp [blockToken]
      within := by simpa [tokens_paddedTokens] using Within.of_sublist (by simp)
      nodup := by simp [blockToken]
      stored := by
        simp [StoredBetween, liftSpan_math, PlaceholderTable.size, blockToken, hblocks] }

theorem edge_of_mem_mathDelimiters {c : Char} (h : c ∈ mathDelimiters) : Edge c := by
  have hall : ∀ c ∈ mathDelimiters, Edge c := by simp [mathDelimiters, Edge, TokenChar]
  exact hall c h

/-- Lifting math keeps a layout sound. -/
theorem kept_liftMath {d : Draft} {s : Text} (h : Kept wanted d s) :
    Kept wanted ((liftMath s).run d).2 ((liftMath s).run d).1 := by
  refine foldlM_keeps (P := Kept wanted) (fun kind hkind d s hkept => ?_) h
  obtain ⟨c, hc, hopens, e, he, hcloses⟩ := delimited_of_mem_mathSpanKinds hkind
  refine hkept.replaceM hopens (edge_of_mem_mathDelimiters hc) hcloses ?_
    fun h _ _ g _ _ _ => yields_liftSpan _ _ _
  intro e' he'
  rw [List.mem_singleton.1 he']
  exact edge_of_mem_mathDelimiters he

/-! ## The header -/

/-- What has been taken out of a source so far: parts for the header, and the remaining text. -/
structure Taken (wanted : Nat → Prop) (source : Script) (found : List Text × Text)
    (parts : List Script) (rest : Script) : Prop where
  partsText : found.1 = parts.map Script.text
  restText : found.2 = Script.text rest
  fits : ∀ g ∈ parts, Fits g
  restSealed : Sealed (plain rest)
  restPadded : Padded rest
  within : Within (Watched wanted) (tokens rest ++ tokens parts.flatten) (tokens source)

theorem Taken.takeField {source : Script} {found : List Text × Text} {parts : List Script}
    {rest : Script} (h : Taken wanted source found parts rest) {field : String × String × String}
    (hname : '\\' :: field.1.toList ∈ takenOut) (htag : Quiet field.2.1.toList)
    (hstyle : Quiet field.2.2.toList) :
    ∃ parts' rest', Taken wanted source (LatexPreview.takeField found field) parts' rest' := by
  obtain ⟨texts, s⟩ := found
  obtain ⟨name, tag, style⟩ := field
  rw [LatexPreview.takeField]
  split
  · exact ⟨parts, rest, h⟩
  · rename_i hit hfind
    obtain ⟨hs, hfound⟩ := find?_eq_some hfind
    obtain ⟨x, hfirst⟩ := ((opens_command name).append _).found hfound
    obtain ⟨y, e, he, hlast⟩ := ((closesIn_longArgument "text").prepend _).found hfound
    obtain rfl := List.mem_singleton.1 he
    obtain ⟨gf, gm, gr, rfl, hgf, hgm, hgr, -, hlast'⟩ :=
      split_part (h.restText.symm.trans hs) hfirst (by decide) hlast (by decide)
    have hleads : (command name ++ longArgument "text").Leads takenOut :=
      ((leads_command name).mono (by simpa using hname)).append _
    have hdeleted : Sealed (plain (gf ++ gr)) :=
      sealed_of_deleted (hgm ▸ hleads.found hfound) h.restSealed
    have hframes := (frames_longArgument "text").prepend (command name)
    obtain ⟨gu, c, ga, d, gv, rfl, hga, -⟩ := frames_script hframes hfound hgm
    have hpart : ga <:+: gf ++ (gu ++ .char c :: (ga ++ .char d :: gv)) ++ gr :=
      ⟨gf ++ gu ++ [.char c], .char d :: gv ++ gr, by simp⟩
    obtain ⟨b, htext, htokens, hfits⟩ := (renders_styled htag hstyle).comp narrows_trim ga
      (h.restSealed.mono (plain_isInfix hpart))
    refine ⟨parts ++ [b], gf ++ gr, ?_⟩
    exact {
      partsText := by
        have hparts : texts = parts.map Script.text := h.partsText
        simp [hparts, htext, hga]
      restText := by simp [hgf, hgr]
      fits := by
        intro g hg
        rcases List.mem_append.1 hg with hg | hg
        · exact h.fits g hg
        · rw [List.mem_singleton.1 hg]
          exact hfits
      restSealed := hdeleted
      restPadded := padded_of_deleted hlast' (by decide) h.restPadded
      within := by
        refine Within.trans ⟨fun t _ => ?_, fun t ht => ?_⟩ h.within
        · have hle := htokens.count_le t
          simp only [tokens_append, tokens_char, List.flatten_append, List.flatten_cons,
            List.flatten_nil, List.append_nil, List.count_append]
          omega
        · have hsub : t ∈ tokens b → t ∈ tokens ga := fun hmem => htokens.subset hmem
          simp only [tokens_append, tokens_char, List.flatten_append, List.flatten_cons,
            List.flatten_nil, List.append_nil, List.mem_append] at ht ⊢
          tauto }

theorem quiet_headerFields {field : String × String × String} (h : field ∈ headerFields) :
    '\\' :: field.1.toList ∈ takenOut ∧ Quiet field.2.1.toList ∧ Quiet field.2.2.toList := by
  have hall : ∀ field ∈ headerFields, '\\' :: field.1.toList ∈ takenOut ∧
      Quiet field.2.1.toList ∧ Quiet field.2.2.toList := by
    decide +kernel
  exact hall field h

theorem Taken.foldl {source : Script} (fields : List (String × String × String))
    (hfields : ∀ field ∈ fields, field ∈ headerFields) {found : List Text × Text}
    {parts : List Script} {rest : Script} (h : Taken wanted source found parts rest) :
    ∃ parts' rest', Taken wanted source (fields.foldl LatexPreview.takeField found) parts' rest' := by
  induction fields generalizing found parts rest with
  | nil => exact ⟨parts, rest, h⟩
  | cons field fields ih =>
    obtain ⟨hname, htag, hstyle⟩ := quiet_headerFields (hfields field (by simp))
    obtain ⟨parts', rest', h'⟩ := h.takeField hname htag hstyle
    exact ih (fun other ho => hfields other (by simp [ho])) h'

/-- The header of some parts: if there is none, then the header that was there. -/
theorem header_fits {l : Layout} (hsound : l.Sound wanted) {parts : List Script}
    (hparts : ∀ g ∈ parts, Fits g) :
    ∃ header, Script.text header = (if parts.isEmpty then Script.text l.header
        else Html.styled "div" Style.header (Script.text parts.flatten)) ∧
      Sealed (plain header) ∧ (header = [] ∨ Capped (plain header)) ∧
      Within (Watched wanted) (tokens header) (tokens l.header ++ tokens parts.flatten) := by
  cases parts with
  | nil => exact ⟨l.header, rfl, hsound.headerSealed, hsound.headerCapped, by simpa using .refl _⟩
  | cons part parts =>
    have hdiv : Renders (Html.styled "div" Style.header) :=
      renders_styled (by decide) (by decide)
    obtain ⟨b, htext, htokens, hsealed, hcapped⟩ := hdiv _ (sealed_flatten hparts)
    exact ⟨b, htext, hsealed, .inr hcapped,
      .of_sublist (htokens.trans (List.sublist_append_right _ _))⟩

/-- Taking the header out keeps a layout sound. -/
theorem kept_extractHeader {d : Draft} {s : Text} (h : Kept wanted d s) :
    Kept wanted ((extractHeader s).run d).2 ((extractHeader s).run d).1 := by
  obtain ⟨l, hshows, hsound, hpadded⟩ := h
  have hstart : Taken wanted l.text ([], s) [] l.text :=
    ⟨rfl, hshows.text, by simp, hsound.textSealed, hpadded, by simpa using .refl _⟩
  obtain ⟨parts, rest, htaken⟩ := hstart.foldl headerFields fun _ h => h
  have hcloses : (fullCommand "maketitle").ClosesIn ['e'] :=
    (closesIn_lit "\\maketitl".toList 'e').edge _
  have hopens : (fullCommand "maketitle").Opens '\\' := (opens_command "maketitle").append _
  obtain ⟨rest', hrest', herased⟩ :=
    eraseFirst_script hopens (((leads_command "maketitle").mono (by decide)).append _) hcloses
      (by simp [Edge, TokenChar]) htaken.restSealed
  obtain ⟨header, hheader, hsealed, hcapped, hwithin⟩ := header_fits hsound htaken.fits
  have hrun : ((extractHeader s).run d).1 = Script.text rest' ∧
      ((extractHeader s).run d).2 = { d with header := Script.text header } := by
    have hfound : headerFields.foldl takeField ([], s) =
        (parts.map Script.text, Script.text rest) := Prod.ext htaken.partsText htaken.restText
    rw [hheader, extractHeader, hfound]
    cases parts with
    | nil => exact ⟨hrest', by rw [List.isEmpty_nil, if_pos rfl, ← hshows.header]; rfl⟩
    | cons part parts =>
      refine ⟨hrest', ?_⟩
      rw [text_flatten]
      rfl
  rw [hrun.1, hrun.2]
  have hchange : Within (Watched wanted)
      (Layout.everything ⟨rest', header, l.blocks, l.maths⟩) ([] ++ l.everything) := by
    refine ⟨fun t ht => ?_, fun t ht => ?_⟩
    · have hrest := (tokens_sublist herased.sublist).count_le t
      have hheader := hwithin.count_le t ht
      have htext := htaken.within.count_le t ht
      simp only [Layout.everything, List.nil_append, List.count_append] at hheader htext ⊢
      omega
    · have hrest : t ∈ tokens rest' → t ∈ tokens rest := fun h =>
        (tokens_sublist herased.sublist).subset h
      have hheader : t ∈ tokens header → t ∈ _ := fun h => hwithin.subset h
      have htext : t ∈ _ → t ∈ tokens l.text := fun h => htaken.within.subset h
      simp only [Layout.everything, List.nil_append, List.mem_append] at hheader htext ht ⊢
      tauto
  have hfresh : l.Fresh ⟨rest', header, l.blocks, l.maths⟩ [] := ⟨by simp, by simp, by simp⟩
  refine ⟨⟨rest', header, l.blocks, l.maths⟩, ?_, ?_, herased.padded htaken.restPadded⟩
  · exact ⟨rfl, rfl, hshows.blocks, hshows.mathName, hshows.maths⟩
  · exact ⟨herased.isSealed, hsealed, hcapped, hsound.shelf, hsound.once_of_change hfresh hchange,
      hsound.known_of_change hfresh (fun _ h => h) hchange⟩

end LatexPreview
