import Mathlib
import LatexPreview.Convert.Inline
import LatexPreview.Proofs.Convert.Layout

/-!
# Formatting within a line

A rule for a command puts the arguments of its matches into elements.  Each rule but one
shows an argument once; the one for plain addresses shows it twice, as the address and as the
text of the link.

* `yields_wrap`, `yields_href`, `yields_footnote`: rules that show an argument once
* `yields_url`: the rule for plain addresses, where no wanted token stands in one
* `kept_formatInline`: the stage keeps sound layouts
-/

namespace LatexPreview

open Script Pattern

variable {wanted : Nat → Prop}

/-! ## Arguments -/

/-- The two arguments of a link. -/
theorem href_script {h : Hit} (hf : (command "href" ++ argument "url" ++ argument "text").Found h)
    {g : Script} (hg : text g = h.matched) (hsealed : Sealed (plain g)) (hpadded : Padded g) :
    ∃ ga gb, text ga = h.get "url" ∧ text gb = h.get "text" ∧
      (Sealed (plain ga) ∧ Sealed (plain gb)) ∧ (∀ t ∈ tokens ga ++ tokens gb, t.kind = .math) ∧
      (tokens ga ++ tokens gb).Sublist (tokens g) := by
  obtain ⟨b, m, ⟨n, hn, hm⟩, ht⟩ := hf
  obtain ⟨u, hu⟩ := hn.exists_append
  obtain ⟨v, hv, hslotsV, hlineV⟩ := matches_argument hm
  obtain ⟨w, hw, hslotsW, hlineW⟩ := matches_argument ht
  have hgetV : h.get "url" = v := by
    have hm' : m.get? "url" = some v := get?_of_slots hslotsV
    have hother : h.stop.get? "url" = m.get? "url" := by
      rw [Cursor.get?, hslotsW]
      rfl
    rw [Hit.get, hother, hm']
    rfl
  have hgetW : h.get "text" = w := by rw [Hit.get, get?_of_slots hslotsW]; rfl
  have hmatched : text g = u ++ '{' :: (v ++ '}' :: ([] ++ '{' :: (w ++ '}' :: []))) := by
    refine hg.trans ((List.append_left_inj h.stop.rest).1 ?_)
    rw [show h.matched ++ h.stop.rest = u ++ n.rest from hu, hv, hw]
    simp
  obtain ⟨gu, ga, g', rfl, -, rfl, hg'⟩ := braced_script hmatched
  obtain ⟨gv, gb, gr, rfl, -, rfl, -⟩ := braced_script hg'
  have hfirst := hpadded.right (by decide)
  have hsecond : Padded gb := by
    have hlater : Padded ((ga ++ .char '}' :: gv) ++ .char '{' :: (gb ++ .char '}' :: gr)) := by
      simpa using hfirst
    exact (hlater.right (by decide)).left
  refine ⟨ga, gb, hgetV.symm, hgetW.symm, ⟨hsealed.mono (plain_isInfix ?_),
    hsealed.mono (plain_isInfix ?_)⟩, fun t ht => ?_, ?_⟩
  · exact ⟨gu ++ [.char '{'], .char '}' :: (gv ++ .char '{' :: (gb ++ .char '}' :: gr)), by simp⟩
  · exact ⟨gu ++ .char '{' :: (ga ++ .char '}' :: gv ++ [.char '{']), .char '}' :: gr, by simp⟩
  · rcases List.mem_append.1 ht with ht | ht
    · exact hfirst.left.kind_eq_math hlineV t ht
    · exact hsecond.kind_eq_math hlineW t ht
  · simp only [tokens_append, tokens_char]
    refine List.Sublist.trans ?_ (List.sublist_append_right _ _)
    exact (List.Sublist.refl _).append
      ((List.sublist_append_left _ (tokens gr)).trans (List.sublist_append_right _ _))

/-! ## Rules -/

theorem yields_wrap {name tag style : String} (htag : Quiet tag.toList)
    (hstyle : Quiet style.toList) {h : Hit} (hf : (command name ++ argument "text").Found h)
    {g : Script} (hg : text g = h.matched) (hsealed : Sealed (plain g)) (hpadded : Padded g) :
    Yields wanted (tokens g) ((InlineRule.wrap name tag style).format h) := by
  obtain ⟨ga, hga, hs, hmath, hsub⟩ := argument_script hf hg hsealed hpadded
  obtain ⟨b, htext, htokens, hfits⟩ := renders_styled htag hstyle ga hs
  refine yields_script fun d => ⟨b, d.footnotes, ?_, hfits, ?_, .of_sublist (htokens.trans hsub)⟩
  · rw [htext, hga]
    rfl
  · exact padded_of_math fun t ht => hmath t (htokens.subset ht)

/-- A link around two scripts. -/
def linkScript (style : String) (address content : Script) : Script :=
  ofText "<a href=\"".toList ++ address ++
    ofText ("\" target=\"_blank\" rel=\"noopener\"".toList ++ Html.attr "style" style.toList ++ ['>'])
    ++ content ++ ofText (elementBack "a")

theorem text_linkScript (style : String) (address content : Script) :
    text (linkScript style address content) = linkTo (text address) style (text content) := by
  simp [linkScript, linkTo, Html.element, Html.attr, elementBack]

theorem tokens_linkScript (style : String) (address content : Script) :
    tokens (linkScript style address content) = tokens address ++ tokens content := by
  simp [linkScript]

theorem fits_linkScript {style : String} (hstyle : Quiet style.toList) {address content : Script}
    (haddress : Sealed (plain address)) (hcontent : Sealed (plain content)) :
    Fits (linkScript style address content) := by
  have hmiddle : Quiet ("\" target=\"_blank\" rel=\"noopener\"".toList ++
      Html.attr "style" style.toList ++ ['>']) := by
    simp only [Html.attr, quiet_append, quiet_cons]
    exact ⟨⟨by decide, ⟨⟨⟨by simp, by decide⟩, by decide⟩, hstyle⟩, by decide⟩, by decide⟩
  have hmiddleCapped : Capped ("\" target=\"_blank\" rel=\"noopener\"".toList ++
      Html.attr "style" style.toList ++ ['>']) :=
    ⟨⟨'"', _, rfl, by decide⟩, _, '>', rfl, by decide⟩
  have hfront : Fits (ofText "<a href=\"".toList) :=
    fits_ofText (by decide) ⟨⟨'<', _, rfl, by decide⟩, "<a href=".toList, '"', rfl, by decide⟩
  exact (hfront.between haddress (fits_ofText hmiddle hmiddleCapped)).between hcontent
    (fits_ofText (by decide) (capped_tag _))

theorem yields_href {h : Hit} (hf : (command "href" ++ argument "url" ++ argument "text").Found h)
    {g : Script} (hg : text g = h.matched) (hsealed : Sealed (plain g)) (hpadded : Padded g) :
    Yields wanted (tokens g) (pure (linkTo (h.get "url") Style.link (h.get "text"))) := by
  obtain ⟨ga, gb, hga, hgb, ⟨hsa, hsb⟩, hmath, hsub⟩ := href_script hf hg hsealed hpadded
  refine yields_script fun d => ⟨linkScript Style.link ga gb, d.footnotes, ?_,
    fits_linkScript (by decide) hsa hsb, ?_, ?_⟩
  · rw [text_linkScript, hga, hgb]
    rfl
  · exact padded_of_math (by rwa [tokens_linkScript])
  · rw [tokens_linkScript]
    exact .of_sublist hsub

/-- An address is shown twice, so no wanted token may stand in it. -/
theorem yields_url {h : Hit} (hf : (command "url" ++ argument "url").Found h)
    (hfree : ∀ n, wanted n → ¬ placeholder Draft.mathName n <:+: h.get "url")
    {g : Script} (hg : text g = h.matched) (hsealed : Sealed (plain g)) (hpadded : Padded g) :
    Yields wanted (tokens g) (pure (linkTo (h.get "url") Style.url (h.get "url"))) := by
  obtain ⟨ga, hga, hs, hmath, hsub⟩ := argument_script hf hg hsealed hpadded
  have hwithin : Within (Watched wanted) (tokens ga ++ tokens ga) (tokens g) := by
    refine ⟨fun t ht => ?_, fun t ht => ?_⟩
    · have hnone : t ∉ tokens ga := by
        intro hmem
        have hkind := hmath t hmem
        refine hfree t.number (ht hkind) ?_
        rw [← hga]
        have hin := (infix_text hs t).2 hmem
        rwa [Token.text, hkind] at hin
      simp [List.count_eq_zero.2 hnone]
    · rcases List.mem_append.1 ht with ht | ht <;> exact hsub.subset ht
  refine yields_script fun d => ⟨linkScript Style.url ga ga, d.footnotes, ?_,
    fits_linkScript (by decide) hs hs, ?_, by rwa [tokens_linkScript]⟩
  · rw [text_linkScript, hga]
    rfl
  · refine padded_of_math fun t ht => ?_
    rw [tokens_linkScript] at ht
    rcases List.mem_append.1 ht with ht | ht <;> exact hmath t ht

/-- The mark of a footnote with a number, around the script of its tip. -/
def footnoteScript (n : Nat) (g : Script) : Script :=
  ofText ("<sup".toList ++ Html.attr "style" Style.footnote.toList ++ " title=\"".toList)
    ++ replaceGlyph '"' "&quot;".toList g
    ++ ofText ("\">[".toList ++ Text.ofNat n ++ ']' :: elementBack "sup")

theorem fits_footnoteScript (n : Nat) {g : Script} (hg : Sealed (plain g)) :
    Fits (footnoteScript n g) := by
  have hfront : Quiet ("<sup".toList ++ Html.attr "style" Style.footnote.toList ++
      " title=\"".toList) := by decide
  have hfrontCapped : Capped ("<sup".toList ++ Html.attr "style" Style.footnote.toList ++
      " title=\"".toList) :=
    ⟨⟨'<', _, rfl, by decide⟩,
      "<sup".toList ++ Html.attr "style" Style.footnote.toList ++ " title=".toList, '"',
      by simp, by decide⟩
  have hnumber : Quiet (Text.ofNat n) := by
    intro c hc hmem
    have hdigit : ∀ c ∈ ['H', 'K', '\\'], c.isDigit = false := by simp
    exact absurd (isDigit_of_mem_ofNat hc) (by simp [hdigit c hmem])
  have hback : Quiet ("\">[".toList ++ Text.ofNat n ++ ']' :: elementBack "sup") := by
    rw [quiet_append, quiet_append]
    exact ⟨⟨by decide, hnumber⟩, by decide⟩
  have hbackCapped : Capped ("\">[".toList ++ Text.ofNat n ++ ']' :: elementBack "sup") :=
    ⟨⟨'"', _, rfl, by decide⟩,
      "\">[".toList ++ Text.ofNat n ++ ']' :: '<' :: '/' :: "sup".toList, '>',
      by simp [elementBack], by decide⟩
  have hquote : ∀ c ∈ "&quot;".toList, c ∉ ['M', 'B'] := by simp
  refine (fits_ofText hfront hfrontCapped).between ?_ (fits_ofText hback hbackCapped)
  rw [plain_replaceGlyph (by decide)]
  exact sealed_replaceChar ⟨'&', _, rfl, by decide⟩ hquote hg

theorem yields_footnote {h : Hit} (hf : (command "footnote" ++ argument "text").Found h)
    {g : Script} (hg : text g = h.matched) (hsealed : Sealed (plain g)) (hpadded : Padded g) :
    Yields wanted (tokens g) (footnoteMark h) := by
  obtain ⟨ga, hga, hs, hmath, hsub⟩ := argument_script hf hg hsealed hpadded
  have htokens : ∀ n, tokens (footnoteScript n ga) = tokens ga := by
    intro n
    simp [footnoteScript, tokens_replaceGlyph]
  refine yields_script fun d => ⟨footnoteScript (d.footnotes + 1) ga, d.footnotes + 1, ?_,
    fits_footnoteScript _ hs, ?_, ?_⟩
  · have htip : text (replaceGlyph '"' "&quot;".toList ga) =
        (h.get "text").replaceChar '"' "&quot;".toList := by
      rw [text_replaceGlyph (by decide), hga]
    have hrun : (footnoteMark h).run d =
        (Html.element "sup" [("style", Style.footnote.toList),
          ("title", (h.get "text").replaceChar '"' "&quot;".toList)]
          ('[' :: Text.ofNat (d.footnotes + 1) ++ [']']),
          { d with footnotes := d.footnotes + 1 }) := rfl
    rw [hrun, ← htip]
    simp [footnoteScript, Html.element, Html.attr, elementBack]
  · exact padded_of_math (by rwa [htokens])
  · rw [htokens]
    exact .of_sublist hsub

/-! ## The stage -/

/-- The rules in front of the one for plain addresses. -/
def formatWithoutUrls (s : Text) : Drafting Text :=
  (inlineRules.take 6).foldlM (fun s rule => rule.pattern.replaceM rule.format s) s

/-- The rule for plain addresses, which it shows as the texts of their links. -/
def urlRule : InlineRule :=
  ⟨command "url" ++ argument "url",
    fun h => pure (linkTo (h.get "url") Style.url (h.get "url"))⟩

/-- The rule for footnotes. -/
def footnoteRule : InlineRule := ⟨command "footnote" ++ argument "text", footnoteMark⟩

/-- The plain addresses in a text. -/
def plainAddresses (s : Text) : List Text := (urlRule.pattern.cut s).hits.map (·.get "url")

theorem formatInline_eq (s : Text) :
    formatInline s = formatWithoutUrls s >>= fun s =>
      urlRule.pattern.replaceM urlRule.format s >>= fun s =>
        footnoteRule.pattern.replaceM footnoteRule.format s := by
  have hrules : inlineRules = inlineRules.take 6 ++ [urlRule, footnoteRule] := rfl
  rw [formatInline, hrules, List.foldlM_append, formatWithoutUrls]
  simp only [List.foldlM_cons, List.foldlM_nil, bind_pure]

/-- A command that ends with an argument. -/
theorem kept_rule {p q : Pattern} {label : String} {f : Hit → Drafting Text}
    (hp : p.Opens '\\') (hq : p = q ++ argument label) {d : Draft} {s : Text}
    (hkept : Kept wanted d s)
    (hf : ∀ h ∈ (p.cut s).hits, p.Found h → ∀ g, text g = h.matched → Sealed (plain g) →
      Padded g → Yields wanted (tokens g) (f h)) :
    Kept wanted ((p.replaceM f s).run d).2 ((p.replaceM f s).run d).1 := by
  subst hq
  refine hkept.replaceM hp (by decide) ((closesIn_argument label).prepend q) ?_ hf
  intro e he
  rw [List.mem_singleton.1 he]
  decide

theorem kept_formatWithoutUrls {d : Draft} {s : Text} (h : Kept wanted d s) :
    Kept wanted ((formatWithoutUrls s).run d).2 ((formatWithoutUrls s).run d).1 := by
  refine foldlM_keeps (P := Kept wanted) (fun rule hrule d s hkept => ?_) h
  have hwrap : ∀ name tag style : String, Quiet tag.toList → Quiet style.toList →
      Kept wanted
        (((InlineRule.wrap name tag style).pattern.replaceM
          (InlineRule.wrap name tag style).format s).run d).2
        (((InlineRule.wrap name tag style).pattern.replaceM
          (InlineRule.wrap name tag style).format s).run d).1 :=
    fun name tag style htag hstyle =>
      kept_rule ((opens_command name).append _) rfl hkept
        fun _ _ hf _ => yields_wrap htag hstyle hf
  simp only [inlineRules, List.take, List.mem_cons, List.not_mem_nil, or_false] at hrule
  rcases hrule with rfl | rfl | rfl | rfl | rfl | rfl
  case inr.inr.inr.inr.inr =>
    exact kept_rule (((opens_command "href").append _).append _) rfl hkept
      fun _ _ hf _ => yields_href hf
  all_goals exact hwrap _ _ _ (by decide) (by decide +kernel)

theorem kept_urls {d : Draft} {s : Text} (h : Kept wanted d s)
    (hfree : ∀ n, wanted n → ∀ address ∈ plainAddresses s,
      ¬ placeholder Draft.mathName n <:+: address) :
    Kept wanted ((urlRule.pattern.replaceM urlRule.format s).run d).2
      ((urlRule.pattern.replaceM urlRule.format s).run d).1 :=
  kept_rule ((opens_command "url").append _) rfl h fun _ hhit hf _ =>
    yields_url hf fun n hn => hfree n hn _ (List.mem_map_of_mem hhit)

theorem kept_footnotes {d : Draft} {s : Text} (h : Kept wanted d s) :
    Kept wanted ((footnoteRule.pattern.replaceM footnoteRule.format s).run d).2
      ((footnoteRule.pattern.replaceM footnoteRule.format s).run d).1 :=
  kept_rule ((opens_command "footnote").append _) rfl h fun _ _ hf _ => yields_footnote hf

/-- Formatting within lines keeps a layout sound, if no wanted token stands in a plain address. -/
theorem kept_formatInline {d : Draft} {s : Text} (h : Kept wanted d s)
    (hfree : ∀ n, wanted n → ∀ address ∈ plainAddresses ((formatWithoutUrls s).run d).1,
      ¬ placeholder Draft.mathName n <:+: address) :
    Kept wanted ((formatInline s).run d).2 ((formatInline s).run d).1 := by
  have hurls := kept_urls (kept_formatWithoutUrls h) hfree
  have hnotes := kept_footnotes hurls
  rwa [formatInline_eq, Drafting.run_bind, Drafting.run_bind]

end LatexPreview
