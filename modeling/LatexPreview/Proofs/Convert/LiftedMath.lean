import Mathlib
import LatexPreview.Proofs.Convert.Growth
import LatexPreview.Proofs.Pattern.Shapes
import LatexPreview.Proofs.Placeholder.Token
import LatexPreview.Proofs.Source.Spans

/-!
# Where lifted math comes from

The kinds of spans are lifted one after the other, so that a span may hold tokens of spans
that were lifted before it.  What it stands for is found by putting these back, and it is
a contiguous part of the document without its declarations: no stage in between has touched
the inside of a span.

* `Draft.Holds` tells what a token in the text stands for
* `Draft.Unfolds` relates a text to one in which all its tokens have been put back
* `Unfolds.split`: an unfolded text may be split wherever a delimiter of math stands
* `liftMath_lifting`: a text that unfolds to the document still does when math is lifted
* `math_is_part_of_document`: every stored span unfolds to a part of the document
-/

namespace LatexPreview

open Pattern

/-! ## Tokens and what they stand for -/

/-- The characters that math spans start or end with. -/
def mathDelimiters : List Char := ['$', '\\', ']', ')', '}']

/-- A token in the text and the source it stands for. A displayed span stands behind the token
of a block, which holds nothing but the token of the math. -/
inductive Draft.Holds (d : Draft) : Text → Text → Prop
  | inline {k : Nat} {source : Text} (hk : d.math.contents[k]? = some source) :
      d.Holds (placeholder Draft.mathName k) source
  | block {i k : Nat} {source : Text}
      (hi : d.blocks.contents[i]? = some (placeholder Draft.mathName k))
      (hk : d.math.contents[k]? = some source) :
      d.Holds ("\n\n".toList ++ placeholder Draft.blockName i ++ "\n\n".toList) source

/-- The second text is the first one with tokens replaced by what they stand for, and this in
turn unfolded. -/
inductive Draft.Unfolds (d : Draft) : Text → Text → Prop
  | nil : d.Unfolds [] []
  | char (c : Char) {s w : Text} (later : d.Unfolds s w) : d.Unfolds (c :: s) (c :: w)
  | token {t source u s w : Text} (held : d.Holds t source) (inner : d.Unfolds source u)
      (later : d.Unfolds s w) : d.Unfolds (t ++ s) (u ++ w)

/-- No delimiter of math stands in a token. -/
theorem Draft.Holds.not_mem {d : Draft} {t source : Text} (h : d.Holds t source) {c : Char}
    (hc : c ∈ mathDelimiters) : c ∉ t := by
  have hplain : ∀ c ∈ mathDelimiters, c ≠ '_' ∧ c ∉ Draft.mathName ∧ c ∉ Draft.blockName ∧
      c.isDigit = false ∧ c ∉ "\n\n".toList := by
    simp [mathDelimiters, Draft.mathName, Draft.blockName]
  obtain ⟨hlow, hmath, hblock, hdigit, hline⟩ := hplain c hc
  cases h with
  | inline hk => exact not_mem_placeholder hlow hmath hdigit _
  | block hi hk =>
    simp only [List.mem_append, not_or]
    exact ⟨⟨hline, not_mem_placeholder hlow hblock hdigit _⟩, hline⟩

namespace Draft

/-! ## Unfolding -/

theorem Unfolds.refl (d : Draft) (s : Text) : d.Unfolds s s := by
  induction s with
  | nil => exact .nil
  | cons c s ih => exact .char c ih

theorem Unfolds.append {d : Draft} {s t w v : Text} (hs : d.Unfolds s w) (ht : d.Unfolds t v) :
    d.Unfolds (s ++ t) (w ++ v) := by
  induction hs with
  | nil => exact ht
  | char c _ ih => exact .char c ih
  | token held inner _ _ ih =>
    rw [List.append_assoc, List.append_assoc]
    exact .token held inner ih

/-- The second draft has the math and the blocks of the first one, and perhaps more. -/
def Extends (d e : Draft) : Prop :=
  d.math.contents <+: e.math.contents ∧ d.blocks.contents <+: e.blocks.contents

theorem Unfolds.mono {d e : Draft} (hde : d.Extends e) {s w : Text} (h : d.Unfolds s w) :
    e.Unfolds s w := by
  have hget : ∀ {l m : List Text} {k : Nat} {x : Text}, l <+: m → l[k]? = some x →
      m[k]? = some x := by
    rintro l _ k x ⟨m, rfl⟩ hk
    rw [List.getElem?_append_left (List.getElem?_eq_some_iff.1 hk).1, hk]
  induction h with
  | nil => exact .nil
  | char c _ ih => exact .char c ih
  | token held _ _ ihinner ihlater =>
    refine .token ?_ ihinner ihlater
    cases held with
    | inline hk => exact .inline (hget hde.1 hk)
    | block hi hk => exact .block (hget hde.2 hi) (hget hde.1 hk)

/-- Where a delimiter of math stands, both sides of it are unfolded apart. -/
theorem Unfolds.split {d : Draft} {s w a b : Text} {c : Char} (h : d.Unfolds s w)
    (hc : c ∈ mathDelimiters) (hs : s = a ++ c :: b) :
    ∃ u v, w = u ++ c :: v ∧ d.Unfolds a u ∧ d.Unfolds b v := by
  induction h generalizing a with
  | nil => simp at hs
  | @char x s w later ih =>
    cases a with
    | nil =>
      obtain ⟨rfl, rfl⟩ := List.cons.inj hs
      exact ⟨[], w, rfl, .nil, later⟩
    | cons y a =>
      obtain ⟨rfl, hrest⟩ := List.cons.inj hs
      obtain ⟨u, v, rfl, ha, hb⟩ := ih hrest
      exact ⟨x :: u, v, rfl, .char x ha, hb⟩
  | @token t source u s w held inner _ _ ih =>
    rcases append_eq_append_cons hs with ⟨a', rfl, hrest⟩ | ⟨v, ht, -⟩
    · obtain ⟨x, y, rfl, ha, hb⟩ := ih hrest
      exact ⟨u ++ x, y, by simp, .token held inner ha, hb⟩
    · exact absurd (by simp [ht]) (held.not_mem hc)

/-- A span of math in a text is unfolded apart from what stands around it. -/
theorem Unfolds.split_span {d : Draft} {front span rest w : Text}
    (h : d.Unfolds (front ++ span ++ rest) w) {c e : Char} {x y : Text}
    (hfirst : span = c :: x) (hc : c ∈ mathDelimiters)
    (hlast : span = y ++ [e]) (he : e ∈ mathDelimiters) :
    ∃ u m v, w = u ++ m ++ v ∧ d.Unfolds front u ∧ d.Unfolds span m ∧ d.Unfolds rest v := by
  obtain ⟨u, w', rfl, hu, hw'⟩ := h.split hc (a := front) (b := x ++ rest) (by simp [hfirst])
  have hspan : d.Unfolds (span ++ rest) (c :: w') := by
    rw [hfirst]
    exact .char c hw'
  obtain ⟨m, v, hm, hy, hv⟩ := hspan.split he (a := y) (b := rest) (by simp [hlast])
  refine ⟨u, m ++ [e], v, by simp [hm], hu, ?_, hv⟩
  rw [hlast]
  exact hy.append (.refl d [e])

/-- A text without tokens that stand for something unfolds to itself only. -/
theorem Unfolds.eq_of_unheld {d : Draft} {s w : Text} (h : d.Unfolds s w)
    (hs : ∀ t source, d.Holds t source → ¬ t <:+: s) : w = s := by
  induction h with
  | nil => rfl
  | char c _ ih =>
    rw [ih fun t source held hi => hs t source held (hi.trans (List.suffix_cons c _).isInfix)]
  | token held => exact absurd (List.prefix_append _ _).isInfix (hs _ _ held)

end Draft

/-! ## Spans -/

theorem closesIn_bareDollar : bareDollar.ClosesIn ['$'] := (closesIn_one '$').prepend _

/-- Every span of math starts and ends with a delimiter. -/
theorem delimited_of_mem_mathSpanKinds {kind : Pattern × MathPlace} (h : kind ∈ mathSpanKinds) :
    ∃ c ∈ mathDelimiters, kind.1.Opens c ∧ ∃ e ∈ mathDelimiters, kind.1.ClosesIn [e] := by
  have hparen : ∀ e, (word (String.ofList ['\\', e])).ClosesIn [e] := fun e => by
    simpa [word] using closesIn_lit ['\\'] e
  simp only [mathSpanKinds, List.mem_cons, List.not_mem_nil, or_false] at h
  rcases h with rfl | rfl | rfl | rfl | rfl
  · exact ⟨'$', by decide, opens_displayDollars, '$', by decide,
      (closesIn_lit ['$'] '$').prepend _⟩
  · exact ⟨'\\', by decide, opens_displayBrackets, ']', by decide,
      (closesIn_lit ['\\'] ']').prepend _⟩
  · exact ⟨'\\', by decide, opens_mathEnvironment _, '}', by decide, (closesIn_one '}').prepend _⟩
  · exact ⟨'\\', by decide, opens_inlineParens, ')', by decide,
      (closesIn_lit ['\\'] ')').prepend _⟩
  · exact ⟨'$', by decide, opens_inlineDollars, '$', by decide, closesIn_bareDollar.prepend _⟩

/-- A text that starts and ends with delimiters of math. -/
structure DelimitedSpan (source : Text) : Prop where
  first : ∃ c ∈ mathDelimiters, ∃ x, source = c :: x
  last : ∃ e ∈ mathDelimiters, ∃ y, source = y ++ [e]

/-- What is kept whenever a span is lifted, is kept when all math is. -/
theorem liftMath_keeps {P : Draft → Text → Prop}
    (hstep : ∀ d front source rest place, DelimitedSpan source → P d (front ++ source ++ rest) →
      P ((liftSpan place source).run d).2 (front ++ ((liftSpan place source).run d).1 ++ rest))
    {d : Draft} {s : Text} (h : P d s) : P ((liftMath s).run d).2 ((liftMath s).run d).1 := by
  refine foldlM_keeps (P := P) (fun kind hkind d s hs => ?_) h
  obtain ⟨c, hc, hopens, e, he, hcloses⟩ := delimited_of_mem_mathSpanKinds hkind
  refine replaceM_keeps (P := P) (fun d front hit _ hf hbefore => ?_) hs
  obtain ⟨x, hfirst⟩ := hopens.found hf
  obtain ⟨y, e', he', hlast⟩ := hcloses.found hf
  rw [List.mem_singleton.1 he'] at hlast
  exact hstep d front hit.matched hit.stop.rest kind.2 ⟨⟨c, hc, x, hfirst⟩, e, he, y, hlast⟩ hbefore

/-! ## Lifting -/

/-- What lifting math keeps: the text unfolds to the document, and what has been stored unfolds
to parts of it. -/
structure Lifting (document : Text) (d : Draft) (s : Text) : Prop where
  mathName : d.math.name = Draft.mathName
  blockName : d.blocks.name = Draft.blockName
  text : d.Unfolds s document
  sources : ∀ source ∈ d.math.contents, ∃ w, d.Unfolds source w ∧ w <:+: document

/-- The new token stands for the span that has been taken out. -/
theorem liftSpan_holds {d : Draft} (hmath : d.math.name = Draft.mathName)
    (hblock : d.blocks.name = Draft.blockName) (place : MathPlace) (source : Text) :
    ((liftSpan place source).run d).2.Holds ((liftSpan place source).run d).1 source := by
  have hnew : (d.math.contents ++ [source])[d.math.size]? = some source := by
    simp [PlaceholderTable.size]
  cases place with
  | inline =>
    rw [show ((liftSpan .inline source).run d).1 = placeholder d.math.name d.math.size from rfl,
      hmath]
    exact .inline hnew
  | block =>
    have hrun : ((liftSpan .block source).run d).1 =
        "\n\n".toList ++ placeholder d.blocks.name d.blocks.size ++ "\n\n".toList := rfl
    rw [hrun, hblock]
    refine .block ?_ hnew
    have htoken : (d.blocks.contents ++ [placeholder d.math.name d.math.size])[d.blocks.size]? =
        some (placeholder d.math.name d.math.size) := by simp [PlaceholderTable.size]
    rw [← hmath]
    exact htoken

theorem liftSpan_math (place : MathPlace) (source : Text) (d : Draft) :
    ((liftSpan place source).run d).2.math = ⟨d.math.name, d.math.contents ++ [source]⟩ := by
  cases place <;> rfl

theorem liftSpan_extends (place : MathPlace) (source : Text) (d : Draft) :
    d.Extends ((liftSpan place source).run d).2 := by
  cases place with
  | inline => exact ⟨List.prefix_append _ _, List.prefix_refl _⟩
  | block => exact ⟨List.prefix_append _ _, List.prefix_append _ _⟩

theorem liftSpan_blockName (place : MathPlace) (source : Text) (d : Draft) :
    ((liftSpan place source).run d).2.blocks.name = d.blocks.name := by
  cases place <;> rfl

/-- Lifting one span keeps the document. -/
theorem Lifting.liftSpan {document : Text} {d : Draft} {front source rest : Text}
    (h : Lifting document d (front ++ source ++ rest)) (place : MathPlace)
    (hsource : DelimitedSpan source) :
    Lifting document ((LatexPreview.liftSpan place source).run d).2
      (front ++ ((LatexPreview.liftSpan place source).run d).1 ++ rest) := by
  obtain ⟨⟨c, hc, x, hfirst⟩, e, he, y, hlast⟩ := hsource
  obtain ⟨u, m, v, hdocument, hu, hm, hv⟩ := h.text.split_span hfirst hc hlast he
  have hext := liftSpan_extends place source d
  have hmath := liftSpan_math place source d
  have htoken := Draft.Unfolds.token (liftSpan_holds h.mathName h.blockName place source)
    (hm.mono hext) .nil
  rw [List.append_nil, List.append_nil] at htoken
  refine ⟨by rw [hmath, ← h.mathName], by rw [liftSpan_blockName, h.blockName], ?_, ?_⟩
  · rw [hdocument]
    exact ((hu.mono hext).append htoken).append (hv.mono hext)
  · intro other hother
    rw [hmath] at hother
    rcases List.mem_append.1 hother with hold | hnew
    · obtain ⟨w, hw, hpart⟩ := h.sources other hold
      exact ⟨w, hw.mono hext, hpart⟩
    · rw [List.mem_singleton.1 hnew]
      exact ⟨m, hm.mono hext, u, v, hdocument.symm⟩

/-- Lifting all math keeps the document. -/
theorem liftMath_lifting (document : Text) :
    Lifting document ((liftMath document).run .fresh).2 ((liftMath document).run .fresh).1 := by
  refine liftMath_keeps (P := Lifting document) (fun _ _ _ _ place hsource h => h.liftSpan place hsource)
    ⟨rfl, rfl, .refl _ _, ?_⟩
  simp [Draft.fresh, PlaceholderTable.empty]

/-! ## The math of a conversion -/

/-- A source may hold tokens of sources that were lifted before it. -/
example : (convert "$\\text\x7bfor \\(x\\)\x7d$".toList).math =
    [("__MTH_0__".toList, "\\(x\\)".toList),
      ("__MTH_1__".toList, "$\\text\x7bfor __MTH_0__\x7d$".toList)] := by
  decide +kernel

end LatexPreview
