import Mathlib
import LatexPreview.Proofs.Convert.InlineStage
import LatexPreview.Proofs.Convert.Untouched
import LatexPreview.Proofs.Listings.Shape

/-!
# What is added to a listing

Between the document and the stage for listings, nothing that weighs is taken away, and a stage that
does something adds to it.  So the weight of the result tells whether they have left the listing as
it is.

* `weight` counts the characters that no token, no command and no tag of an environment has
* `weighed_liftMath`: displayed math adds four line breaks
* `Swells` are the replacements that stay within the code and add something
* `swells_inlineRules`, `swells_heading`: formatting within lines and headings are of this kind
* `foldlM_swells`: what a row of such replacements adds
-/

namespace LatexPreview

open Pattern Text

/-! ## Weights -/

/-- The characters that are counted: line breaks, the characters of tags, and the last one of an
escaped character. -/
def weighs (c : Char) : Bool := c == '\n' || c == '<' || c == '>' || c == ';'

/-- The number of these characters. -/
def weight (s : Text) : Nat := s.countP weighs

/-- What a text weighs with all that has been taken out of it. -/
def Draft.weight (d : Draft) (s : Text) : Nat :=
  LatexPreview.weight s + (d.math.contents.map LatexPreview.weight).sum +
    (d.blocks.contents.map LatexPreview.weight).sum

section Weights

variable {s t code content : Text} {tag : String} {attributes : List (String × Text)}

@[simp] theorem weight_nil : weight [] = 0 := rfl

@[simp] theorem weight_append (s t : Text) : weight (s ++ t) = weight s + weight t :=
  List.countP_append

@[simp] theorem weight_cons (c : Char) (s : Text) :
    weight (c :: s) = weight s + if weighs c then 1 else 0 := List.countP_cons

theorem weight_eq_zero (h : ∀ c ∈ s, weighs c = false) : weight s = 0 :=
  List.countP_eq_zero.2 fun c hc => by simp [h c hc]

theorem weighs_of_tokenChar {c : Char} (hc : TokenChar c) : weighs c = false := by
  have hall : ∀ c ∈ ['\n', '<', '>', ';'], ¬ TokenChar c := by simp [TokenChar]
  by_contra hweighs
  rw [Bool.not_eq_false] at hweighs
  exact hall c (by simpa [weighs, or_assoc] using hweighs) hc

theorem weight_token (t : Token) : weight t.text = 0 :=
  weight_eq_zero fun _ hc => weighs_of_tokenChar (t.tokenChar_of_mem hc)

theorem weight_listing (code : Text) : weight (listing code) = weight code := by
  have htags : weight listingFront = 0 ∧ weight listingBack = 0 := by decide
  simp [listing, htags]

/-- An element weighs more than its content and its values. -/
theorem weight_element (tag : String) (attributes : List (String × Text)) (content : Text) :
    weight content + (attributes.map fun a => weight a.2).sum + 4 ≤
      weight (Html.element tag attributes content) := by
  have hattributes : (attributes.map fun a => weight a.2).sum ≤
      weight (attributes.flatMap fun a => Html.attr a.1 a.2) := by
    induction attributes with
    | nil => exact le_rfl
    | cons a attributes ih =>
      have hvalue : weight a.2 ≤ weight (Html.attr a.1 a.2) := by
        simp only [Html.attr, weight_append]
        omega
      simp only [List.map_cons, List.sum_cons, List.flatMap_cons, weight_append]
      omega
  have hbrackets : weight ['>'] = 1 ∧ weight "</".toList = 1 ∧ weighs '<' = true ∧
      weighs '>' = true := by decide
  simp only [Html.element, weight_append, weight_cons, hbrackets]
  simp only [if_true]
  omega

/-- Escaped code weighs as much as before. -/
theorem weight_codeBlock (code : Text) :
    weight (codeBlock code) = weight (codeBlock []) + weight code := by
  have hescape : weight (escapeCode code) = weight code :=
    (countP_replaceChar_eq (by decide)).trans (countP_replaceChar_eq (by decide))
  rw [← hescape]
  exact countP_codeBlock weighs code

namespace Draft

theorem weight_around (d : Draft) (x s y : Text) :
    d.weight (x ++ s ++ y) = LatexPreview.weight x + d.weight s + LatexPreview.weight y := by
  simp only [weight, weight_append]
  omega

theorem weight_eq (d : Draft) (s : Text) : d.weight s = LatexPreview.weight s + d.weight [] := by
  simp [weight, Nat.add_assoc]

end Draft

end Weights

/-! ## Steps of a conversion -/

section Steps

variable {d : Draft}

/-- A block that is taken out weighs as before, and four line breaks are added. -/
theorem weight_addBlock (hname : d.blocks.name = Draft.blockName) (html : Text) :
    ((addBlock html).run d).2.weight ((addBlock html).run d).1 = d.weight html + 4 := by
  have htext : ((addBlock html).run d).1 =
      "\n\n".toList ++ Token.text ⟨.block, d.blocks.size⟩ ++ "\n\n".toList := by
    rw [Token.text, TokenKind.name, ← hname]
    rfl
  have hblocks : ((addBlock html).run d).2.blocks.contents = d.blocks.contents ++ [html] := rfl
  have hmath : ((addBlock html).run d).2.math = d.math := rfl
  have hbreaks : weight "\n\n".toList = 2 := by decide
  rw [htext, Draft.weight, hblocks, hmath, Draft.weight]
  simp only [weight_append, weight_token, hbreaks, List.map_append, List.map_singleton,
    List.sum_append, List.sum_singleton]
  omega

/-- Math that is taken out weighs as before, and displayed math adds four line breaks. -/
theorem weight_liftSpan (hmath : d.math.name = Draft.mathName)
    (hblock : d.blocks.name = Draft.blockName) (place : MathPlace) (source : Text) :
    ((liftSpan place source).run d).2.weight ((liftSpan place source).run d).1 + 4 * d.blocks.size =
      d.weight source + 4 * ((liftSpan place source).run d).2.blocks.size := by
  have htoken : weight (placeholder d.math.name d.math.size) = 0 := by
    rw [hmath]
    exact weight_token ⟨.math, d.math.size⟩
  rw [Draft.weight, Draft.weight, liftSpan_math]
  cases place with
  | inline =>
    have htext : ((liftSpan .inline source).run d).1 = placeholder d.math.name d.math.size := rfl
    have hblocks : ((liftSpan .inline source).run d).2.blocks = d.blocks := rfl
    simp only [htext, hblocks, htoken, List.map_append, List.map_singleton, List.sum_append,
      List.sum_singleton]
    omega
  | block =>
    have htext : ((liftSpan .block source).run d).1 =
        "\n\n".toList ++ placeholder d.blocks.name d.blocks.size ++ "\n\n".toList := rfl
    have hblocks : ((liftSpan .block source).run d).2.blocks =
        ⟨d.blocks.name, d.blocks.contents ++ [placeholder d.math.name d.math.size]⟩ := rfl
    have hhole : weight (placeholder d.blocks.name d.blocks.size) = 0 := by
      rw [hblock]
      exact weight_token ⟨.block, d.blocks.size⟩
    have hbreaks : weight "\n\n".toList = 2 := by decide
    have hsize : PlaceholderTable.size ⟨d.blocks.name,
        d.blocks.contents ++ [placeholder d.math.name d.math.size]⟩ = d.blocks.size + 1 :=
      List.length_append
    simp only [htext, hblocks, htoken, hhole, hbreaks, hsize, weight_append, List.map_append,
      List.map_singleton, List.sum_append, List.sum_singleton]
    omega

/-- What each span that is lifted keeps: nothing is taken out of the code but for a block with four line
breaks, and its tags stay. -/
structure Weighed (total : Nat) (d : Draft) (s : Text) : Prop where
  mathName : d.math.name = Draft.mathName
  blockName : d.blocks.name = Draft.blockName
  isListing : IsListing s
  weight_eq : d.weight s = total + 4 * d.blocks.size

theorem Weighed.liftSpan {total : Nat} {front : Text} {h : Hit} {kind : Pattern × MathPlace}
    (hs : Weighed total d (front ++ h.matched ++ h.stop.rest)) (hkind : kind ∈ mathSpanKinds)
    (hf : kind.1.Found h) : Weighed total ((LatexPreview.liftSpan kind.2 h.matched).run d).2
      (front ++ ((LatexPreview.liftSpan kind.2 h.matched).run d).1 ++ h.stop.rest) := by
  refine ⟨by rw [liftSpan_math, hs.mathName], by rw [liftSpan_blockName, hs.blockName],
    isListing_liftSpan hkind hf hs.mathName hs.blockName hs.isListing, ?_⟩
  have hone := weight_liftSpan hs.mathName hs.blockName kind.2 h.matched
  have htotal := hs.weight_eq
  rw [Draft.weight_around] at htotal ⊢
  omega

theorem weighed_liftMath {s : Text} (hs : IsListing s) :
    Weighed (weight s) ((liftMath s).run .fresh).2 ((liftMath s).run .fresh).1 := by
  refine foldlM_keeps (P := Weighed (weight s)) (fun kind hkind d t ht => ?_) ⟨rfl, rfl, hs, ?_⟩
  · exact replaceM_keeps (P := Weighed (weight s)) (fun d front hit _ hf h => h.liftSpan hkind hf) ht
  · simp [Draft.weight, Draft.fresh, PlaceholderTable.empty, PlaceholderTable.size]

end Steps

/-! ## Rules that add something -/

/-- A rule whose matches lie within the code of a listing, and which puts something in their place
that has no closing tag of its own and weighs more. -/
structure InlineRule.Swells (rule : InlineRule) : Prop where
  stays : rule.pattern.StaysInCode
  blockName : ∀ h, ∀ d : Draft, d.blocks.name = Draft.blockName →
    ((rule.format h).run d).2.blocks.name = Draft.blockName
  shape : ∀ h, rule.pattern.Found h → ∀ d : Draft, d.blocks.name = Draft.blockName → ∀ x y,
    listingBack <:+: x ++ (((rule.format h).run d).1 ++ y) →
      listingBack <:+: x ∨ listingBack <:+: h.matched ∨ listingBack <:+: y
  adds : ∀ h, rule.pattern.Found h → ∀ d : Draft, d.blocks.name = Draft.blockName →
    d.weight h.matched < ((rule.format h).run d).2.weight ((rule.format h).run d).1

/-- A listing, with all that has been taken out of it, of some weight. -/
structure AtLeast (total : Nat) (d : Draft) (s : Text) : Prop where
  blockName : d.blocks.name = Draft.blockName
  isListing : IsListing s
  le_weight : total ≤ d.weight s

section Rules

variable {total : Nat} {d : Draft} {s : Text}

theorem InlineRule.Swells.step {rule : InlineRule} (hr : rule.Swells) {front : Text} {h : Hit}
    (hf : rule.pattern.Found h) (hs : AtLeast total d (front ++ h.matched ++ h.stop.rest)) :
    AtLeast (total + 1) ((rule.format h).run d).2
      (front ++ ((rule.format h).run d).1 ++ h.stop.rest) := by
  have hadds := hr.adds h hf d hs.blockName
  have htotal := hs.le_weight
  refine ⟨hr.blockName h d hs.blockName,
    hs.isListing.replaced hr.stays hf (hr.shape h hf d hs.blockName), ?_⟩
  rw [Draft.weight_around] at htotal ⊢
  omega

/-- Each match makes a listing heavier. -/
theorem InlineRule.Swells.replaceM {rule : InlineRule} (hr : rule.Swells) (hs : AtLeast total d s) :
    AtLeast (total + rule.pattern.count s) ((rule.pattern.replaceM rule.format s).run d).2
      ((rule.pattern.replaceM rule.format s).run d).1 :=
  replaceM_counts (P := fun n => AtLeast (total + n)) (fun _ _ _ _ _ hf h => hr.step hf h) hs

/-- If a row of rules does not make a listing heavier, none of them has found anything in it. -/
theorem foldlM_swells {rules : List InlineRule} (hr : ∀ rule ∈ rules, rule.Swells)
    (hs : AtLeast total d s) :
    let r := (rules.foldlM (fun s rule => rule.pattern.replaceM rule.format s) s : Drafting Text).run d
    AtLeast total r.2 r.1 ∧
      (r.2.weight r.1 = total → ∀ rule ∈ rules, rule.pattern.Passes s) := by
  induction rules generalizing total d s with
  | nil => exact ⟨hs, fun _ => by simp⟩
  | cons rule rules ih =>
    have hfirst := (hr rule (by simp)).replaceM hs
    obtain ⟨hlater, hnone⟩ := ih (fun rule hrule => hr rule (by simp [hrule])) hfirst
    rw [List.foldlM_cons]
    simp only [Drafting.run_bind]
    refine ⟨⟨hlater.blockName, hlater.isListing, (Nat.le_add_right _ _).trans hlater.le_weight⟩,
      fun hweight => ?_⟩
    have hcount : rule.pattern.count s = 0 := by
      have hle := hlater.le_weight
      omega
    obtain ⟨c, -, hopens⟩ := (hr rule (by simp)).stays.opens
    have hpasses := passes_of_count hopens.consumes hcount
    have hsame : (rule.pattern.replaceM rule.format s).run d = (s, d) := hpasses.replaceM_run d
    rw [hcount, Nat.add_zero, hsame] at hnone
    rw [hsame] at hweight
    exact List.forall_mem_cons.2 ⟨hpasses, hnone hweight⟩

end Rules

/-! ## Formatting within lines -/

section Arguments

variable {q : Pattern} {label : String} {h : Hit}

/-- A match that ends with an argument. -/
theorem found_argument {P : Char → Prop} (hq : q.Over P) (hf : (q ++ argument label).Found h) :
    ∃ u, h.matched = u ++ braced (h.get label) ∧ ∀ c ∈ u, P c := by
  obtain ⟨b, m, hfirst, harg⟩ := hf
  obtain ⟨w, -, hw, hget⟩ := exists_of_argument harg
  obtain ⟨u, hu, hall⟩ := hfirst.over hq
  have hlabel : h.get label = w := by rw [Hit.get, hget]; rfl
  refine ⟨u, ?_, hall⟩
  have hwhole : h.matched ++ h.stop.rest = u ++ braced w ++ h.stop.rest := by
    rw [List.append_assoc, ← hw]
    exact hu
  rw [hlabel]
  exact List.append_cancel_right hwhole

theorem weight_braced (w : Text) : weight (braced w) = weight w := by
  have hbraces : weighs '{' = false ∧ weight ['}'] = 0 := by decide
  simp [braced, hbraces]

theorem infix_braced (u w : Text) : w <:+: u ++ braced w := ⟨u ++ ['{'], ['}'], by simp [braced]⟩

end Arguments

/-- The text makes no closing tag in place of the other one, and weighs more. -/
structure Swollen (m new : Text) : Prop where
  shape : ∀ x y, listingBack <:+: x ++ (new ++ y) →
    listingBack <:+: x ∨ listingBack <:+: m ∨ listingBack <:+: y
  weight_lt : weight m < weight new

/-- An element swells what is shown in it. -/
theorem swollen_element {tag : String} {attributes : List (String × Text)} {content m : Text}
    (htag : '\\' ∉ tag.toList) (hnames : ∀ a ∈ attributes, '\\' ∉ a.1.toList)
    (hvalues : ∀ a ∈ attributes, '\\' ∉ a.2 ∨ (listingBack <:+: a.2 → listingBack <:+: m))
    (hcontent : listingBack <:+: content → listingBack <:+: m)
    (hweight : weight m ≤ weight content + (attributes.map fun a => weight a.2).sum) :
    Swollen m (Html.element tag attributes content) := by
  refine ⟨fun x y => not_listingBack_element htag hnames (fun a ha hi => ?_) hcontent, ?_⟩
  · rcases hvalues a ha with hslash | hvalue
    · exact absurd (hi.subset (by decide)) hslash
    · exact hvalue hi
  · have helement := weight_element tag attributes content
    omega

/-- A rule that shows its matches in elements. -/
theorem swells_of_swollen {p : Pattern} {f : Hit → Drafting Text} (hp : p.StaysInCode)
    (hdraft : ∀ h, ∀ d : Draft,
      ((f h).run d).2.math = d.math ∧ ((f h).run d).2.blocks = d.blocks)
    (hnew : ∀ h, p.Found h → ∀ d : Draft, Swollen h.matched ((f h).run d).1) :
    InlineRule.Swells ⟨p, f⟩ := by
  refine ⟨hp, fun h d hname => ?_, fun h hf d _ => (hnew h hf d).shape, fun h hf d _ => ?_⟩
  · exact (hdraft h d).2 ▸ hname
  · have hlt := (hnew h hf d).weight_lt
    show d.weight h.matched < ((f h).run d).2.weight ((f h).run d).1
    rw [Draft.weight, Draft.weight, (hdraft h d).1, (hdraft h d).2]
    omega

theorem weightless_lit {w : Text} (hw : weight w = 0) : (lit w).Over (weighs · = false) :=
  over_lit fun c hc => by simpa using List.countP_eq_zero.1 hw c hc

/-- A command that shows its argument. -/
theorem swells_wrap {name tag style : String}
    (hstays : (command name ++ argument "text").StaysInCode)
    (hname : weight ('\\' :: name.toList) = 0) (htag : '\\' ∉ tag.toList)
    (hstyle : '\\' ∉ style.toList) : (InlineRule.wrap name tag style).Swells := by
  refine swells_of_swollen hstays (fun _ _ => ⟨rfl, rfl⟩) fun h hf d => ?_
  obtain ⟨u, hmatched, hu⟩ := found_argument (weightless_lit hname) hf
  refine swollen_element htag (by simp) (by simpa using .inl hstyle) (fun hi => ?_) ?_
  · rw [hmatched]
    exact hi.trans (infix_braced _ _)
  · rw [hmatched, weight_append, weight_eq_zero hu, weight_braced]
    omega

theorem staysInCode_command {name label : String} {c : Char} (hlast : name.toList.getLast? = some c)
    (hc : c ≠ 'd') (hfront : (command name ++ argument label).Refuses listingFront)
    (hback : (command name ++ argument label).Refuses listingBack) :
    (command name ++ argument label).StaysInCode :=
  staysInCode_argument (opens_command name) (closesIn_command hlast) (by simpa using hc.symm) hfront
    hback

/-- A link shows the arguments of its command. -/
theorem swollen_link {address content m : Text} {style : String} (hstyle : '\\' ∉ style.toList)
    (haddress : listingBack <:+: address → listingBack <:+: m)
    (hcontent : listingBack <:+: content → listingBack <:+: m)
    (hweight : weight m ≤ weight address + weight content) :
    Swollen m (linkTo address style content) := by
  refine swollen_element (by decide) (by simp) ?_ hcontent ?_
  · simp only [List.forall_mem_cons, List.not_mem_nil, false_implies, implies_true, and_true]
    exact ⟨.inr haddress, .inl (by decide), .inl (by decide), .inl hstyle⟩
  · simp only [List.map_cons, List.sum_cons]
    omega

/-- The two arguments of a link. -/
theorem found_href {h : Hit} (hf : (command "href" ++ argument "url" ++ argument "text").Found h) :
    ∃ u, h.matched = u ++ braced (h.get "url") ++ braced (h.get "text") ∧
      ∀ c ∈ u, weighs c = false := by
  obtain ⟨b, m, ⟨n, hname, hurl⟩, htext⟩ := hf
  obtain ⟨v, -, hv, hgetv⟩ := exists_of_argument hurl
  obtain ⟨w, -, hw, hgetw⟩ := exists_of_argument htext
  obtain ⟨u, hu, hall⟩ := hname.over (weightless_lit (by decide))
  have hother : h.stop.get? "url" = m.get? "url" := by
    obtain ⟨x, -, hslots, -⟩ := matches_argument htext
    rw [Cursor.get?, hslots]
    rfl
  have hgets : h.get "url" = v ∧ h.get "text" = w := by
    rw [Hit.get, Hit.get, hother, hgetv, hgetw]
    exact ⟨rfl, rfl⟩
  refine ⟨u, ?_, hall⟩
  have hwhole : h.matched ++ h.stop.rest = u ++ braced v ++ braced w ++ h.stop.rest := by
    rw [List.append_assoc, List.append_assoc, ← hw, ← hv]
    exact hu
  rw [hgets.1, hgets.2]
  exact List.append_cancel_right hwhole

theorem swells_href : InlineRule.Swells ⟨command "href" ++ argument "url" ++ argument "text",
    fun h => pure (linkTo (h.get "url") Style.link (h.get "text"))⟩ := by
  have hstays : (command "href" ++ argument "url" ++ argument "text").StaysInCode :=
    staysInCode_argument ((opens_command _).append _) ((closesIn_argument _).prepend _) (by decide)
      (by decide) (by decide)
  refine swells_of_swollen hstays (fun _ _ => ⟨rfl, rfl⟩) fun h hf d => ?_
  obtain ⟨u, hmatched, hu⟩ := found_href hf
  refine swollen_link (by decide) (fun hi => ?_) (fun hi => ?_) ?_
  · rw [hmatched]
    exact (hi.trans (infix_braced u _)).trans (List.prefix_append _ _).isInfix
  · rw [hmatched]
    exact hi.trans (infix_braced _ _)
  · rw [hmatched, weight_append, weight_append, weight_eq_zero hu, weight_braced, weight_braced]
    omega

theorem swells_url : urlRule.Swells := by
  refine swells_of_swollen (staysInCode_command rfl (by decide) (by decide) (by decide))
    (fun _ _ => ⟨rfl, rfl⟩) fun h hf d => ?_
  obtain ⟨u, hmatched, hu⟩ := found_argument (weightless_lit (by decide)) hf
  have hinside : listingBack <:+: h.get "url" → listingBack <:+: h.matched := fun hi => by
    rw [hmatched]
    exact hi.trans (infix_braced _ _)
  refine swollen_link (by decide) hinside hinside ?_
  rw [hmatched, weight_append, weight_eq_zero hu, weight_braced]
  omega

theorem swells_footnote : footnoteRule.Swells := by
  refine swells_of_swollen (staysInCode_command rfl (by decide) (by decide) (by decide))
    (fun _ _ => ⟨rfl, rfl⟩) fun h hf d => ?_
  obtain ⟨u, hmatched, hu⟩ := found_argument (weightless_lit (by decide)) hf
  have hrun : ((footnoteMark h).run d).1 = Html.element "sup" [("style", Style.footnote.toList),
      ("title", (h.get "text").replaceChar '"' "&quot;".toList)]
        ('[' :: Text.ofNat (d.footnotes + 1) ++ [']']) := rfl
  have hnumber : '\\' ∉ '[' :: Text.ofNat (d.footnotes + 1) ++ [']'] := by
    have hdigits : '\\' ∉ Text.ofNat (d.footnotes + 1) := fun hmem =>
      absurd (isDigit_of_mem_ofNat hmem) (by decide)
    simp [hdigits]
  have htip : listingBack <:+: (h.get "text").replaceChar '"' "&quot;".toList →
      listingBack <:+: h.matched := fun hi => by
    have hsplit : listingBack <:+:
        (h.get "text").replaceChar '"' ('&' :: ("quot".toList ++ [';'])) := hi
    have hin := infix_of_infix_replaceChar (by decide) (by decide) (by decide) (by decide) hsplit
    rw [hmatched]
    exact hin.trans (infix_braced _ _)
  have hweight : weight (h.get "text") ≤
      weight ((h.get "text").replaceChar '"' "&quot;".toList) :=
    countP_le_replaceChar (by decide)
  show Swollen h.matched ((footnoteMark h).run d).1
  rw [hrun]
  refine swollen_element (by decide) (by simp) ?_ (fun hi => ?_) ?_
  · simp only [List.forall_mem_cons, List.not_mem_nil, false_implies, implies_true, and_true]
    exact ⟨.inl (by decide), .inr htip⟩
  · exact absurd (hi.subset (by decide)) hnumber
  · rw [hmatched, weight_append, weight_eq_zero hu, weight_braced]
    simp only [List.map_cons, List.map_nil, List.sum_cons, List.sum_nil]
    omega

theorem swells_inlineRules {rule : InlineRule} (hrule : rule ∈ inlineRules) : rule.Swells := by
  revert rule
  simp only [inlineRules, List.forall_mem_cons, List.not_mem_nil, false_implies, implies_true, and_true]
  have hwrap : ∀ name tag style : String, (∃ c, name.toList.getLast? = some c ∧ c ≠ 'd') →
      (command name ++ argument "text").Refuses listingFront →
      (command name ++ argument "text").Refuses listingBack → weight ('\\' :: name.toList) = 0 →
      '\\' ∉ tag.toList → '\\' ∉ style.toList → (InlineRule.wrap name tag style).Swells := by
    rintro name tag style ⟨c, hlast, hc⟩ hfront hback
    exact swells_wrap (staysInCode_command hlast hc hfront hback)
  exact ⟨hwrap _ _ _ ⟨_, rfl, by decide⟩ (by decide) (by decide) (by decide) (by decide) (by decide),
    hwrap _ _ _ ⟨_, rfl, by decide⟩ (by decide) (by decide) (by decide) (by decide) (by decide),
    hwrap _ _ _ ⟨_, rfl, by decide⟩ (by decide) (by decide) (by decide) (by decide) (by decide),
    hwrap _ _ _ ⟨_, rfl, by decide⟩ (by decide) (by decide) (by decide) (by decide) (by decide +kernel),
    hwrap _ _ _ ⟨_, rfl, by decide⟩ (by decide) (by decide) (by decide) (by decide) (by decide),
    swells_href, swells_url, swells_footnote⟩

/-! ## Headings -/

/-- The stage for headings, as a rule. -/
def headingRule : InlineRule :=
  ⟨headingPattern, fun h =>
    let level := HeadingLevel.ofName (h.get "level")
    addBlock (Html.styled level.tag level.style (h.get "text"))⟩

theorem staysInCode_heading : headingPattern.StaysInCode := by
  have hlevel : (anyOf (HeadingLevel.all.map (word ·.name))).ClosesIn ['n'] :=
    (closesIn_lit "subsubsectio".toList 'n').alt
      ((closesIn_lit "subsectio".toList 'n').alt (closesIn_lit "sectio".toList 'n'))
  have hnamed : (one (· == '\\') ++ capture "level" (anyOf (HeadingLevel.all.map (word ·.name)))).ClosesIn
      ['n', '*'] := ((hlevel.capture "level").prepend _).mono (by simp)
  have hstar : (one (· == '*')).ClosesIn ['n', '*'] := (closesIn_one '*').mono (by simp)
  exact staysInCode_argument (((opens_one '\\').append _).append _) (hnamed.optional hstar)
    (by decide) (by decide) (by decide)

theorem weight_heading {h : Hit} (hf : headingPattern.Found h) :
    weight h.matched = weight (h.get "text") := by
  have hone : ∀ d : Char, weighs d = false → (one (· == d)).Over (weighs · = false) := by
    intro d hd c hc
    rwa [beq_iff_eq.1 hc]
  have hover : (one (· == '\\') ++ capture "level" (anyOf (HeadingLevel.all.map (word ·.name))) ++
      optional (one (· == '*'))).Over (weighs · = false) :=
    ⟨⟨hone _ (by decide), weightless_lit (by decide), weightless_lit (by decide),
      weightless_lit (by decide)⟩,
      hone _ (by decide), trivial⟩
  obtain ⟨u, hmatched, hu⟩ := found_argument hover hf
  rw [hmatched, weight_append, weight_eq_zero hu, weight_braced, Nat.zero_add]

theorem swells_heading : headingRule.Swells := by
  refine ⟨staysInCode_heading, fun h d hname => hname, fun h hf d hname x y hi => ?_,
    fun h hf d hname => ?_⟩
  · have htext : ((headingRule.format h).run d).1 =
        "\n\n".toList ++ (Token.text ⟨.block, d.blocks.size⟩ ++ "\n\n".toList) := by
      rw [Token.text, TokenKind.name, ← hname]
      rfl
    rw [htext] at hi
    exact not_listingBack_token (by simp) hi
  · let level := HeadingLevel.ofName (h.get "level")
    have helement := weight_element level.tag [("style", level.style.toList)] (h.get "text")
    have hstored : ((headingRule.format h).run d).2.weight ((headingRule.format h).run d).1 =
        d.weight (Html.styled level.tag level.style (h.get "text")) + 4 := weight_addBlock hname _
    have hheading := weight_heading hf
    rw [hstored, Draft.weight_eq, d.weight_eq (Html.styled _ _ _), Html.styled, hheading]
    omega

end LatexPreview
