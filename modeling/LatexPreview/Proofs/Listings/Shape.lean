import Mathlib
import LatexPreview.Proofs.Convert.LiftUndone
import LatexPreview.Proofs.Listings.Code
import LatexPreview.Proofs.MathText.Delimiters
import LatexPreview.Proofs.Pattern.Arguments
import LatexPreview.Proofs.Pattern.Front
import LatexPreview.Proofs.Placeholder.Words

/-!
# The shape of a listing

The stages in front of the one for listings go over the code of a listing as over any other text.  But
a match of theirs neither takes a part of the tags around the code away nor makes a second closing
tag, so that what they leave is a listing again.

* `listing` is code between its tags, `IsListing` a text of this shape whose code does not close it
* `Pattern.StaysInCode` are the patterns whose matches lie within the code
* `IsListing.replaced`: such a match is replaced within the code
* `isListing_liftSpan`, `staysInCode_argument`: math, and commands with arguments
-/

namespace LatexPreview

open Pattern Text Script

/-! ## Listings -/

/-- The tag in front of the code. -/
def listingFront : Text := beginTag "verbatim".toList

/-- The tag behind the code. -/
def listingBack : Text := endTag "verbatim".toList

/-- A document that is nothing but a listing. -/
def listing (code : Text) : Text := listingFront ++ (code ++ listingBack)

/-- The text is a listing, whose code does not close it. -/
def IsListing (s : Text) : Prop := ∃ code, s = listing code ∧ ¬ listingBack <:+: code

theorem listing_injective {x y : Text} (h : listing x = listing y) : x = y :=
  List.append_cancel_right (List.append_cancel_left h)

/-- A backslash stands at the front of either tag only. -/
theorem eq_nil_of_tag {w x y : Text} (hw : w = listingFront ∨ w = listingBack) {c : Char}
    (hc : c = '\\' ∨ c = '$') (h : w = x ++ c :: y) : x = [] := by
  have hrest : ∀ w, w = listingFront ∨ w = listingBack → '\\' ∉ w.tail ∧ '$' ∉ w := by
    rintro w (rfl | rfl) <;> decide
  obtain ⟨hslash, hdollar⟩ := hrest w hw
  rcases hc with rfl | rfl
  · cases x with
    | nil => rfl
    | cons d x => exact absurd (by rw [h]; simp) hslash
  · exact absurd (by rw [h]; simp) hdollar

/-- A brace closes the closing tag only at its end. -/
theorem eq_nil_of_listingBack {x y : Text} (h : listingBack = x ++ '}' :: y) : y = [] := by
  rcases List.eq_nil_or_concat y with rfl | ⟨y, c, rfl⟩
  · rfl
  · have hrest : '}' ∉ listingBack.dropLast := by decide
    refine absurd ?_ hrest
    rw [h, List.concat_eq_append, ← List.cons_append, ← List.append_assoc, List.dropLast_concat]
    simp

/-! ## Patterns within code -/

/-- Matches of the pattern lie within the code of a listing: they begin with a character that no tag
goes on with, and not where a tag begins, and they end neither within the closing tag nor with all
of it. -/
structure Pattern.StaysInCode (p : Pattern) : Prop where
  opens : ∃ c, (c = '\\' ∨ c = '$') ∧ p.Opens c
  front : p.Refuses listingFront
  back : p.Refuses listingBack
  closes : ∃ cs, p.ClosesIn cs ∧ ∀ e ∈ cs, e = '}' ∨ e ∉ listingBack
  apart : ∀ h, p.Found h → ¬ listingBack <:+ h.matched

section Matches

variable {p : Pattern} {h : Hit}

/-- A match does not begin where the pattern refuses a tag. -/
theorem Pattern.Refuses.not_found {w : Text} (hp : p.Refuses w) (hf : p.Found h) {r : Text} :
    h.matched ++ h.stop.rest ≠ w ++ r := by
  obtain ⟨b, hmatches⟩ := hf
  exact fun hs => hp.not_matches hs hmatches

/-- A match in a listing begins behind the opening tag. -/
theorem Pattern.StaysInCode.exists_front (hp : p.StaysInCode) (hf : p.Found h) {front code : Text}
    (hs : front ++ h.matched ++ h.stop.rest = listing code) : ∃ x, front = listingFront ++ x ∧
      code ++ listingBack = x ++ (h.matched ++ h.stop.rest) := by
  obtain ⟨c, hc, hopens⟩ := hp.opens
  obtain ⟨v, hfirst⟩ := hopens.found hf
  rw [listing, List.append_assoc] at hs
  rcases List.append_eq_append_iff.1 hs with ⟨z, htag, hrest⟩ | ⟨x, hx, hrest⟩
  · cases z with
    | nil => exact ⟨[], by simpa using htag.symm, by simpa using hrest.symm⟩
    | cons d z =>
      -- The match would begin within the opening tag, and so at its front.
      have hd : d = c := by
        rw [hfirst] at hrest
        exact (List.cons.inj hrest).1.symm
      have hnil := eq_nil_of_tag (.inl rfl) (hd ▸ hc) htag
      rw [hnil, List.nil_append] at htag
      exact absurd (hrest.trans (by rw [htag])) (hp.front.not_found hf)
  · exact ⟨x, hx, hrest⟩

/-- A match that begins in front of the closing tag leaves all of it. -/
theorem Pattern.StaysInCode.exists_back (hp : p.StaysInCode) (hf : p.Found h) {z : Text}
    (hs : z ++ listingBack = h.matched ++ h.stop.rest) :
    ∃ y, h.stop.rest = y ++ listingBack ∧ z = h.matched ++ y := by
  obtain ⟨cs, hcloses, hcs⟩ := hp.closes
  obtain ⟨u, e, he, hlast⟩ := hcloses.found hf
  rcases List.append_eq_append_iff.1 hs with ⟨w, hmatched, hrest⟩ | ⟨y, hy, hrest⟩
  · rcases List.eq_nil_or_concat w with rfl | ⟨w, d, rfl⟩
    · exact ⟨[], by simpa using hrest.symm, by simpa using hmatched.symm⟩
    · -- The match would end within the closing tag, and so with all of it.
      have hd : d = e := by
        rw [hlast, List.concat_eq_append, ← List.append_assoc] at hmatched
        exact (List.append_inj' hmatched rfl).2 |> List.singleton_inj.1 |>.symm
      have hback : listingBack = w ++ e :: h.stop.rest := by
        rw [hrest, hd]
        simp
      have hbrace : e = '}' := (hcs e he).resolve_right fun hnot => hnot (by rw [hback]; simp)
      have hnil := eq_nil_of_listingBack (hbrace ▸ hback)
      rw [hnil, List.append_nil] at hrest
      exact absurd ⟨z, by rw [hmatched, hrest]⟩ (hp.apart h hf)
  · exact ⟨y, hrest, hy⟩

/-- Where a match lies in a listing. -/
theorem Pattern.StaysInCode.exists_parts (hp : p.StaysInCode) (hf : p.Found h) {front code : Text}
    (hs : front ++ h.matched ++ h.stop.rest = listing code) : ∃ x y,
      front = listingFront ++ x ∧ h.stop.rest = y ++ listingBack ∧ code = x ++ h.matched ++ y := by
  obtain ⟨x, hx, hcode⟩ := hp.exists_front hf hs
  rcases List.append_eq_append_iff.1 hcode with ⟨z, -, hrest⟩ | ⟨z, hz, hrest⟩
  · -- The match would begin within the closing tag, and so at its front.
    obtain ⟨c, hc, hopens⟩ := hp.opens
    obtain ⟨v, hfirst⟩ := hopens.found hf
    rw [hfirst, List.cons_append] at hrest
    have hnil := eq_nil_of_tag (.inr rfl) hc hrest
    rw [hnil, List.nil_append, ← List.cons_append, ← hfirst, ← List.append_nil listingBack] at hrest
    exact absurd hrest.symm (hp.back.not_found hf)
  · obtain ⟨y, hy, hmatched⟩ := hp.exists_back hf hrest.symm
    exact ⟨x, y, hx, hy, by rw [hz, hmatched, List.append_assoc]⟩

/-- A match in a listing is replaced within the code, and if this makes no closing tag, the text is a
listing again. -/
theorem IsListing.replaced (hp : p.StaysInCode) (hf : p.Found h) {front new : Text}
    (hs : IsListing (front ++ h.matched ++ h.stop.rest))
    (hnew : ∀ x y, listingBack <:+: x ++ (new ++ y) →
      listingBack <:+: x ∨ listingBack <:+: h.matched ∨ listingBack <:+: y) :
    IsListing (front ++ new ++ h.stop.rest) := by
  obtain ⟨code, hcode, hback⟩ := hs
  obtain ⟨x, y, rfl, hy, rfl⟩ := hp.exists_parts hf hcode
  refine ⟨x ++ (new ++ y), by rw [hy, listing]; simp, fun hi => ?_⟩
  rcases hnew x y hi with hi | hi | hi
  · exact hback (hi.trans ⟨[], h.matched ++ y, by simp⟩)
  · exact hback (hi.trans ⟨x, y, rfl⟩)
  · exact hback (hi.trans ⟨x ++ h.matched, [], by simp⟩)

end Matches

/-! ## Math -/

/-- A match that ends with another character than the closing tag does not end with this. -/
theorem not_listingBack_of_getLast {m w : Text} {e : Char} (hm : m = w ++ [e]) (he : e ≠ '}') :
    ¬ listingBack <:+ m := by
  rintro ⟨x, rfl⟩
  have hlast : listingBack = "\\end\x7bverbatim".toList ++ ['}'] := by decide
  rw [hlast, ← List.append_assoc] at hm
  exact he (List.singleton_inj.1 (List.append_inj' hm rfl).2).symm

theorem staysInCode_mathSpanKinds {kind : Pattern × MathPlace} (hkind : kind ∈ mathSpanKinds) :
    kind.1.StaysInCode := by
  have hplain : ∀ {p : Pattern} {c e : Char}, (c = '\\' ∨ c = '$') → p.Opens c → p.ClosesIn [e] →
      e ≠ '}' → e ∉ listingBack → p.Refuses listingFront → p.Refuses listingBack → p.StaysInCode := by
    intro p c e hc hopens hcloses hne he hfront hback
    refine ⟨⟨c, hc, hopens⟩, hfront, hback, ⟨[e], hcloses, by simp [he]⟩, fun h hf => ?_⟩
    obtain ⟨w, e', he', hlast⟩ := hcloses.found hf
    exact not_listingBack_of_getLast hlast (List.mem_singleton.1 he' ▸ hne)
  simp only [mathSpanKinds, List.mem_cons, List.not_mem_nil, or_false] at hkind
  rcases hkind with rfl | rfl | rfl | rfl | rfl
  · exact hplain (.inr rfl) opens_displayDollars
      ((closesIn_lit ['$'] '$').prepend _) (by decide) (by decide) (by decide) (by decide)
  · exact hplain (.inl rfl) opens_displayBrackets
      ((closesIn_lit ['\\'] ']').prepend _) (by decide) (by decide) (by decide) (by decide)
  · refine ⟨⟨'\\', .inl rfl, opens_mathEnvironment _⟩, by decide, by decide,
      ⟨['}'], (closesIn_one '}').prepend _, by simp⟩, ?_⟩
    rintro h ⟨b, hmatches⟩ ⟨x, hx⟩
    obtain ⟨n, hn, star, hstar, w, hs, -⟩ := matches_mathEnvironment (by simp) hmatches
    have hmatched : h.matched = (beginTag (n ++ star) ++ w) ++ endTag (n ++ star) := by
      have hall : h.matched ++ h.stop.rest =
          (beginTag (n ++ star) ++ w) ++ endTag (n ++ star) ++ h.stop.rest :=
        hs.trans (by simp)
      exact List.append_cancel_right hall
    -- The letter in front of the last brace tells the two names apart.
    have hletter : ∀ n ∈ ["align", "equation", "gather", "multline"].map (·.toList), ∀ star ∈ stars,
        (endTag (n ++ star)).dropLast.getLast? ≠ some 'm' ∧ 2 ≤ (endTag (n ++ star)).length := by
      decide
    obtain ⟨hne, hlength⟩ := hletter n hn star hstar
    have hsame := congrArg (fun m : Text => m.dropLast.getLast?) (hx.trans hmatched)
    have hend : listingBack = "\\end\x7bverbati".toList ++ ['m', '}'] := by decide
    have hfront : endTag (n ++ star) ≠ [] ∧ (endTag (n ++ star)).dropLast ≠ [] := by
      constructor
      · rw [← List.length_pos_iff]
        omega
      · rw [← List.length_pos_iff, List.length_dropLast]
        omega
    simp only [List.dropLast_append_of_ne_nil hfront.1,
      List.getLast?_append_of_ne_nil _ hfront.2, hend] at hsame
    rw [← hsame] at hne
    exact hne (by simp [List.dropLast_append_of_ne_nil])
  · exact hplain (.inl rfl) opens_inlineParens
      ((closesIn_lit ['\\'] ')').prepend _) (by decide) (by decide) (by decide) (by decide)
  · exact hplain (.inr rfl) opens_inlineDollars (closesIn_bareDollar.prepend _)
      (by decide) (by decide) (by decide) (by decide)

/-- A token makes no closing tag, also with line breaks around it. -/
theorem not_listingBack_token {x y m : Text} {t : Token} {u v : Text}
    (hbreaks : ∀ c ∈ x ++ y, c = '\n') (h : listingBack <:+: u ++ ((x ++ (t.text ++ y)) ++ v)) :
    listingBack <:+: u ∨ listingBack <:+: m ∨ listingBack <:+: v := by
  have hdisjoint : ∀ c ∈ listingBack, c ∉ x ++ (t.text ++ y) := by
    have hall : ∀ c ∈ listingBack, ¬ TokenChar c ∧ c ≠ '\n' := by
      have hcheck : (listingBack.all fun c => decide (¬ TokenChar c ∧ c ≠ '\n')) = true := by decide
      exact fun c hc => of_decide_eq_true (List.all_eq_true.1 hcheck c hc)
    intro c hc hmem
    simp only [List.mem_append] at hmem
    rcases hmem with hmem | hmem | hmem
    · exact (hall c hc).2 (hbreaks c (List.mem_append_left _ hmem))
    · exact (hall c hc).1 (t.tokenChar_of_mem hmem)
    · exact (hall c hc).2 (hbreaks c (List.mem_append_right _ hmem))
  have hne : x ++ (t.text ++ y) ≠ [] := by simp [t.text_eq]
  rcases (infix_around (by decide) hne hdisjoint).1 h with hu | hv
  · exact .inl hu
  · exact .inr (.inr hv)

/-- Lifting a span leaves a listing. -/
theorem isListing_liftSpan {d : Draft} {kind : Pattern × MathPlace} {h : Hit} {front : Text}
    (hkind : kind ∈ mathSpanKinds) (hf : kind.1.Found h) (hmath : d.math.name = Draft.mathName)
    (hblock : d.blocks.name = Draft.blockName) (hs : IsListing (front ++ h.matched ++ h.stop.rest)) :
    IsListing (front ++ ((liftSpan kind.2 h.matched).run d).1 ++ h.stop.rest) := by
  obtain ⟨x, t, y, hnew, hbreaks, -⟩ := exists_liftSpan_token hmath hblock kind.2 h.matched
  rw [hnew]
  exact hs.replaced (staysInCode_mathSpanKinds hkind) hf fun _ _ hi => not_listingBack_token hbreaks hi

/-! ## Commands with arguments -/

/-- A command that ends with an argument stays within the code: a brace that is opened in the argument
is closed there, too. -/
theorem staysInCode_argument {q : Pattern} {label : String} {cs : List Char} (hopens : q.Opens '\\')
    (hcloses : q.ClosesIn cs) (hcs : 'd' ∉ cs) (hfront : (q ++ argument label).Refuses listingFront)
    (hback : (q ++ argument label).Refuses listingBack) : (q ++ argument label).StaysInCode := by
  refine ⟨⟨'\\', .inl rfl, hopens.append _⟩, hfront, hback,
    ⟨['}'], (closesIn_argument label).prepend _, by simp⟩, ?_⟩
  rintro h ⟨b, m, hq, harg⟩ ⟨x, hx⟩
  obtain ⟨u, e, he, hu⟩ := hcloses _ _ hq
  obtain ⟨w, hw, hm, -⟩ := exists_of_argument harg
  have hmatched : h.matched = (u ++ [e]) ++ braced w := by
    have hall : h.matched ++ h.stop.rest = (u ++ [e]) ++ braced w ++ h.stop.rest := by
      have hwhole : h.matched ++ h.stop.rest = u ++ e :: m.rest := hu
      rw [hwhole, hm]
      simp
    exact List.append_cancel_right hall
  have htag : listingBack = "\\end".toList ++ '{' :: "verbatim".toList ++ ['}'] := rfl
  have hinside : (u ++ [e]) ++ '{' :: w = (x ++ "\\end".toList) ++ '{' :: "verbatim".toList := by
    have hall : (u ++ [e]) ++ '{' :: w ++ ['}'] =
        (x ++ "\\end".toList) ++ '{' :: "verbatim".toList ++ ['}'] := by
      rw [htag, hmatched] at hx
      simpa [braced] using hx.symm
    exact List.append_cancel_right hall
  rcases append_eq_append_cons hinside with ⟨y, hy, hlater⟩ | ⟨v, -, hlater⟩
  · cases y with
    | nil =>
      have hlast : 'd' = e := by simpa [List.getLast?_append] using congrArg List.getLast? hy
      exact hcs (hlast ▸ he)
    | cons c y =>
      obtain ⟨-, hopen⟩ := List.cons.inj hlater
      exact absurd (hw.mem_of_open hopen) (by decide)
  · have hbrace : '{' ∉ "verbatim".toList := by decide
    exact absurd (by rw [hlater]; simp) hbrace

/-! ## Elements -/

theorem unmarked_listingBack : Unmarked listingBack := by
  refine ⟨by decide, fun c hc => ?_⟩
  have hall : (tagChars.all fun c => decide (c ∉ listingBack)) = true := by decide
  exact of_decide_eq_true (List.all_eq_true.1 hall c hc)

/-- An element makes no closing tag, unless there is one in its content or a value. -/
theorem not_listingBack_element {tag : String} {attributes : List (String × Text)}
    {content x y m : Text} (htag : '\\' ∉ tag.toList) (hnames : ∀ a ∈ attributes, '\\' ∉ a.1.toList)
    (hvalues : ∀ a ∈ attributes, listingBack <:+: a.2 → listingBack <:+: m)
    (hcontent : listingBack <:+: content → listingBack <:+: m)
    (h : listingBack <:+: x ++ (Html.element tag attributes content ++ y)) :
    listingBack <:+: x ∨ listingBack <:+: m ∨ listingBack <:+: y := by
  have hback := unmarked_listingBack
  have hslash : ∀ s : Text, '\\' ∉ s → ¬ listingBack <:+: s := fun s hs hi =>
    hs (hi.subset (by decide))
  obtain ⟨inner, hinner⟩ : Enclosed (Html.element tag attributes content) := enclosed_element
  have hsplit : x ++ (Html.element tag attributes content ++ y) = x ++ '<' :: (inner ++ '>' :: y) := by
    simp [hinner]
  rw [hsplit, infix_append_cons hback.ne_nil (hback.not_mem '<' (by decide)),
    infix_append_cons hback.ne_nil (hback.not_mem '>' (by decide))] at h
  refine h.imp_right (Or.imp_left fun hi => ?_)
  have helement : listingBack <:+: Html.element tag attributes content :=
    hi.trans ⟨['<'], ['>'], by simp [hinner]⟩
  rcases hback.infix_element helement with hi | ⟨a, ha, hi | hi⟩ | hi
  · exact absurd hi (hslash _ htag)
  · exact absurd hi (hslash _ (hnames a ha))
  · exact hvalues a ha hi
  · exact hcontent hi

end LatexPreview
