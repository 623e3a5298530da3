import Mathlib
import LatexPreview.Proofs.Convert.LiftParts
import LatexPreview.Proofs.Cover.Stripped

/-!
# Math around a cover page

A cover page has no math of its own, and most of what it is made of cannot begin a span.  The one
exception is the bracket behind a row that asks for space: a backslash and a bracket are read as the
beginning of displayed math wherever they stand, and so pair with the next closing bracket of the
document, if there is one.

* `Markup.skips_laterKinds`: no other span starts in a page
* `skips_of_not_closed`: brackets that are not closed are no spans
* `exists_slices_bracket`: what a bracket of the page makes of the brackets behind it
-/

namespace LatexPreview

open Pattern Text

/-! ## Words in refilled texts -/

/-- A word that does not reach into what has been put in place of slices stands in front of one of
them or behind the last. -/
theorem Sliced.infix_refill {w : Text} {parts : List Text} (hw : w ≠ []) {σ : Sliced Char}
    (hlength : parts.length = σ.slices.length)
    (hparts : ∀ part ∈ parts, part ≠ [] ∧ ∀ c ∈ w, c ∉ part) :
    w <:+: σ.refill parts ↔ ∃ gap ∈ σ.gaps, w <:+: gap := by
  induction σ generalizing parts with
  | tail rest => simp [refill, gaps]
  | slice gap part later ih =>
    cases parts with
    | nil => exact absurd hlength (by simp [slices])
    | cons new parts =>
      obtain ⟨hne, hdisjoint⟩ := hparts new (by simp)
      have hlater := ih (by simpa [slices] using hlength) fun part hpart => hparts part (by simp [hpart])
      rw [refill, List.append_assoc, infix_around hw hne hdisjoint, hlater]
      simp [gaps]

/-! ## Spans in a page -/

section Page

variable {spaced : Bool}

theorem dollar_of_mem_pageNames {name : Text} (h : name ∈ pageNames) : name = ['$'] ∨ '$' ∉ name := by
  have hall : pageNames.all fun n => decide (n = ['$']) || decide ('$' ∉ n) := by decide
  simpa using List.all_eq_true.1 hall name h

theorem dollar_not_mem_rowEnds : ∀ c ∈ rowEnds true, '$' ≠ c := by
  simp [rowEnds]

theorem PageSetting.dollar_not_mem (x : PageSetting) : '$' ∉ x.text := by
  have hmeasure : ∀ w : Measure, '$' ∉ braced w.1 := fun w => by
    simp [braced, w.not_mem]
  cases x with
  | package name => exact List.not_mem_append (by decide) (hmeasure name)
  | space size => exact List.not_mem_append (by decide) (hmeasure size)
  | stretch factor => exact List.not_mem_append (by decide) (hmeasure factor)
  | newPage => decide

/-- A dollar of a page stands behind a backslash. -/
theorem Markup.skips_inlineDollars (m : Markup spaced) (b : Option Char) (s : Text) :
    inlineDollars.Skips b m.text s := by
  have hplain : ∀ {x : Text}, '$' ∉ x → ∀ b s, inlineDollars.Skips b x s :=
    fun hx b s => opens_inlineDollars.skips hx s
  refine @Markup.without_rel _ (fun _ => false)
    (fun x _ => ∀ b s, inlineDollars.Skips b x s) (fun _ _ => trivial)
    (fun hx hx' b s => skips_append.2 ⟨hx b _, hx' _ s⟩)
    (fun c _ hc => hplain (by simpa using hc)) (fun name hname _ => ?word)
    (fun c hc => hplain (by simpa using dollar_not_mem_rowEnds c hc))
    (fun x => hplain (List.not_mem_append x.dollar_not_mem (by simp))) m b s
  case word =>
    rcases dollar_of_mem_pageNames hname with rfl | hname
    · intro b s
      have hslash := hplain (x := ['\\']) (by simp) b ('$' :: s)
      have hdollar := at?_inlineDollars (some '\\') ('$' :: s)
      rw [behindDollars, if_pos rfl, Option.map_eq_none_iff] at hdollar
      exact ⟨hslash.1, hdollar, trivial⟩
    · exact hplain (by simpa using hname)

/-- The delimiter of displayed math between dollars. -/
def dollars : Text := ['$', '$']

/-- No dollars of a page stand side by side. -/
theorem Markup.avoids_dollars (m : Markup spaced) (hlast : m.text.getLast? = some '\n')
    (s : Text) : Avoids dollars m.text s := by
  have hplain : ∀ {x : Text}, '$' ∉ x → x ≠ [] → ∀ s : Text, s.head? ≠ some '$' →
      Avoids dollars x s ∧ (x ++ s).head? ≠ some '$' := by
    intro x hx hne s _
    obtain ⟨c, x, rfl⟩ := List.exists_cons_of_ne_nil hne
    exact ⟨avoids_of_not_mem hx, fun hhead => hx (by simp [Option.some.inj hhead])⟩
  have hall := @Markup.without_rel _ (fun _ => false)
    (fun x _ => ∀ s : Text, s.head? ≠ some '$' →
      Avoids dollars x s ∧ (x ++ s).head? ≠ some '$')
    (fun s hs => ⟨trivial, hs⟩) (fun {x _ x' _} hx hx' s hs => ?append)
    (fun c _ hc => hplain (by simpa using hc) (by simp)) (fun name hname _ => ?word)
    (fun c hc => hplain (by simpa using dollar_not_mem_rowEnds c hc) (by simp))
    (fun x => hplain (List.not_mem_append x.dollar_not_mem (by simp)) (by simp)) m
  case append =>
    obtain ⟨havoids, hhead⟩ := hx' s hs
    obtain ⟨havoids', hhead'⟩ := hx (x' ++ s) hhead
    exact ⟨avoids_append.2 ⟨havoids', havoids⟩, by rwa [List.append_assoc]⟩
  case word =>
    rcases dollar_of_mem_pageNames hname with rfl | hname
    · intro s hs
      refine ⟨⟨by simp [dollars], fun hp => hs ?_, trivial⟩, by simp⟩
      obtain ⟨r, hr⟩ := (List.cons_prefix_cons.1 hp).2
      rw [← show ['$'] ++ r = s from hr]
      rfl
    · exact hplain (by simpa using hname) (by simp)
  obtain ⟨x, hx⟩ := List.getLast?_eq_some_iff.1 hlast
  have halone := (hall [] (by simp)).1
  rw [hx, avoids_append] at halone ⊢
  exact ⟨(avoids_append_iff (by simp)).2
    ((avoids_append_iff (by simp)).1 halone.1), avoids_of_not_mem (by simp)⟩

/-- The delimiter at the end of displayed math between brackets. -/
def closingBracket : Text := ['\\', ']']

theorem Markup.avoids_names (m : Markup spaced) {w : Text} (hw : w ≠ [])
    (hnames : ((markupNames spaced).all fun n => decide (Clash n w)) = true) (s : Text) :
    Avoids ('\\' :: w) m.text s :=
  (m.commands s).avoids hw fun n hn => of_decide_eq_true (List.all_eq_true.1 hnames n hn)

/-- In a page that asks for no space behind rows, there are no brackets behind backslashes. -/
theorem Markup.avoids_bracket (m : Markup false) (s : Text) : Avoids bracket m.text s :=
  m.avoids_names (by simp) (by decide) s

theorem Markup.avoids_closingBracket (m : Markup spaced) (s : Text) :
    Avoids closingBracket m.text s := by
  have hnames : ∀ spaced, ((markupNames spaced).all fun n => decide (Clash n [']'])) = true := by
    decide
  exact m.avoids_names (by simp) (hnames spaced) s

/-- A page closes no bracket. -/
theorem Markup.not_closed (m : Markup spaced) {s : Text} (h : ¬ closingBracket <:+: s) :
    ¬ closingBracket <:+: m.text ++ s := by
  have hne : closingBracket ≠ [] := by simp [closingBracket]
  rw [← avoids_nil_iff hne] at h ⊢
  exact avoids_append.2 ⟨m.avoids_closingBracket _, h⟩

/-- The kinds of spans that are lifted after the ones between double dollars and between
brackets. -/
def laterKinds : List (Pattern × MathPlace) :=
  [(displayEnvironment, .block), (inlineParens, .inline), (inlineDollars, .inline)]

theorem mathSpanKinds_eq : mathSpanKinds =
    (displayDollars, .block) :: (displayBrackets, .block) :: laterKinds := rfl

/-- No span of one of these kinds starts in a page. -/
theorem Markup.skips_laterKinds (m : Markup spaced) {kind : Pattern × MathPlace}
    (hkind : kind ∈ laterKinds) (b : Option Char) (s : Text) : kind.1.Skips b m.text s := by
  simp only [laterKinds, List.mem_cons, List.not_mem_nil, or_false] at hkind
  rcases hkind with rfl | rfl | rfl
  · have hnames : ∀ spaced, (["align", "equation", "gather", "multline"].all fun name =>
        (markupNames spaced).all fun n =>
          decide (Clash n ("begin".toList ++ braced name.toList)) &&
          decide (Clash n ("begin".toList ++ braced (name.toList ++ ['*'])))) = true := by
      decide
    have hclash : ∀ name ∈ ["align", "equation", "gather", "multline"].map (·.toList), ∀ tail,
        tail = [] ∨ tail = ['*'] → Avoids (beginTag (name ++ tail)) m.text s := by
      intro name hname tail htail
      obtain ⟨label, hlabel, rfl⟩ := List.mem_map.1 hname
      have hall := List.all_eq_true.1 (hnames spaced) label hlabel
      refine (m.commands s).avoids (w := "begin".toList ++ braced (label.toList ++ tail))
        (by simp [braced]) fun n hn => ?_
      have hboth := List.all_eq_true.1 hall n hn
      simp only [Bool.and_eq_true, decide_eq_true_eq] at hboth
      rcases htail with rfl | rfl
      · rw [List.append_nil]
        exact hboth.1
      · exact hboth.2
    refine (spans_mathEnvironment (by simp)).skips (fun f hf => ?_) b
    obtain ⟨name, rfl, n, hn, rfl | rfl⟩ := exists_envFrame hf
    · have havoids := hclash name hn [] (.inl rfl)
      rwa [List.append_nil] at havoids
    · exact hclash n hn ['*'] (.inr rfl)
  · have hnames : ∀ spaced, ((markupNames spaced).all fun n => decide (Clash n ['('])) = true := by
      decide
    refine spans_inlineParens.skips (fun f hf => ?_) b
    rw [List.mem_singleton.1 hf]
    exact m.avoids_names (by simp) (hnames spaced) s
  · exact m.skips_inlineDollars b s

/-- No span between double dollars starts in a page that ends with the end of a line. -/
theorem Markup.skips_displayDollars (m : Markup spaced) (hlast : m.text.getLast? = some '\n')
    (b : Option Char) (s : Text) : displayDollars.Skips b m.text s := by
  refine spans_displayDollars.skips (fun f hf => ?_) b
  rw [List.mem_singleton.1 hf]
  exact m.avoids_dollars hlast s

end Page

/-! ## Brackets -/

section Brackets

variable {x y s : Text} {b : Option Char}

theorem displayBrackets_edges (b b' : Option Char) : displayBrackets.EdgesAgree b b' :=
  ⟨⟨edgesAgree_lit _, trivial⟩, edgesAgree_lit _⟩

/-- Brackets that are not closed are no spans. -/
theorem skips_of_not_closed (h : ¬ closingBracket <:+: x ++ s) : displayBrackets.Skips b x s := by
  induction x generalizing b with
  | nil => trivial
  | cons c x ih =>
    have hx : ¬ closingBracket <:+: x ++ s := fun hx => h (hx.trans (List.suffix_cons c _).isInfix)
    refine ⟨Option.map_eq_none_iff (f := (·.rest)).1 ?_, ih hx⟩
    rw [spans_displayBrackets, behindFrame, List.findSome?_singleton]
    cases hdrop : dropFront? "\\[".toList (c :: (x ++ s)) with
    | none => rfl
    | some r =>
      have hr : ¬ closingBracket <:+: r := by
        rw [List.cons_append, eq_append_of_dropFront? hdrop] at h
        exact fun hr => h (hr.trans (List.suffix_append _ _).isInfix)
      have hnone := Text.find?_eq_none (w := closingBracket) (by simp [closingBracket])
        ((avoids_nil_iff (by simp [closingBracket])).2 hr)
      show (Text.find? closingBracket r).map Prod.snd = none
      rw [hnone]
      rfl

/-- Brackets reach to the first closing one. -/
theorem slicedFrom_displayBrackets (h : Avoids closingBracket x (closingBracket ++ s)) :
    displayBrackets.slicedFrom b (bracket ++ (x ++ (closingBracket ++ s))) =
      .slice [] (bracket ++ (x ++ closingBracket)) (displayBrackets.slicedFrom none s) := by
  have hrest : (displayBrackets.at? b (bracket ++ (x ++ (closingBracket ++ s)))).map (·.rest) =
      some s := by
    rw [spans_displayBrackets, behindFrame, List.findSome?_singleton]
    show (dropFront? bracket (bracket ++ _)).bind
      (fun r => (Text.find? closingBracket r).map Prod.snd) = some s
    rw [dropFront?_append, Option.bind_some, Text.find?_append h]
    rfl
  obtain ⟨stop, hstop, hs⟩ := Option.map_eq_some_iff.1 hrest
  have hwhole : bracket ++ (x ++ (closingBracket ++ s)) =
      bracket ++ (x ++ closingBracket) ++ s := by simp
  rw [hwhole] at hstop ⊢
  rw [slicedFrom_hit opens_displayBrackets.consumes (by simp [bracket]) hstop hs,
    slicedFrom_congr opens_displayBrackets.consumes (displayBrackets_edges _ none)]

/-- What stands in front of the first bracket is left as it is. -/
theorem slices_displayBrackets (h : Avoids bracket x s) :
    (displayBrackets.slicedFrom b (x ++ s)).slices = (displayBrackets.slicedFrom none s).slices := by
  have hskips : displayBrackets.Skips b x s := spans_displayBrackets.skips (fun f hf => by
    rw [List.mem_singleton.1 hf]
    exact h) b
  rw [slicedFrom_skips opens_displayBrackets.consumes hskips, Sliced.slices_prepend,
    slicedFrom_congr opens_displayBrackets.consumes (displayBrackets_edges _ none)]

/-- A text with a bracket in front of a closing one: the bracket takes the place of the one that
would have been paired with the closing one, if there was any. -/
theorem exists_slices_bracket (hx : bracket <:+: x) (hopen : ∀ s, Avoids closingBracket x s)
    (hs : closingBracket <:+: s) : ∃ long later,
      (displayBrackets.slicedFrom none (x ++ s)).slices = long :: later ∧
      ((displayBrackets.slicedFrom none s).slices = later ∨
        ∃ short, (displayBrackets.slicedFrom none s).slices = short :: later ∧
          short.length < long.length) := by
  have hslash : '\\' ∉ ['['] := by simp
  obtain ⟨x₁, x₂, rfl, hx₁⟩ := exists_first hx
  obtain ⟨u, v, rfl, hu⟩ := exists_first hs
  have hfront : ∀ {x y}, Avoids bracket x (bracket ++ y) → ∀ t, Avoids bracket x (bracket ++ t) :=
    fun hx t => avoids_congr hslash hx
  have hx₂ : ∀ t, Avoids closingBracket x₂ t := fun t =>
    (avoids_append.1 (avoids_append.1 (hopen t)).2).2
  have hlong : (displayBrackets.slicedFrom none
      (x₁ ++ (bracket ++ x₂) ++ (u ++ (closingBracket ++ v)))).slices =
      (bracket ++ (x₂ ++ u ++ closingBracket)) :: (displayBrackets.slicedFrom none v).slices := by
    have hwhole : x₁ ++ (bracket ++ x₂) ++ (u ++ (closingBracket ++ v)) =
        x₁ ++ (bracket ++ (x₂ ++ u ++ (closingBracket ++ v))) := by simp
    rw [hwhole, slices_displayBrackets (hfront hx₁ _),
      slicedFrom_displayBrackets (avoids_append.2 ⟨hx₂ _, hu⟩)]
    rfl
  refine ⟨_, _, hlong, ?_⟩
  by_cases hbracket : bracket <:+: u
  · obtain ⟨u₁, u₂, rfl, hu₁⟩ := exists_first hbracket
    refine .inr ⟨bracket ++ (u₂ ++ closingBracket), ?_, ?_⟩
    · have hwhole : u₁ ++ (bracket ++ u₂) ++ (closingBracket ++ v) =
          u₁ ++ (bracket ++ (u₂ ++ (closingBracket ++ v))) := by simp
      rw [hwhole, slices_displayBrackets (hfront hu₁ _),
        slicedFrom_displayBrackets (avoids_append.1 (avoids_append.1 hu).2).2]
      rfl
    · simp only [bracket, closingBracket, List.length_append, List.length_cons, List.length_nil]
      omega
  · refine .inl ?_
    have havoids : Avoids bracket u (closingBracket ++ v) :=
      (avoids_append_iff hslash).2 ((avoids_nil_iff (by simp)).2 hbracket)
    have hclosing : Avoids bracket closingBracket v := by simp [Avoids, bracket, closingBracket]
    rw [slices_displayBrackets havoids, slices_displayBrackets hclosing]

end Brackets

end LatexPreview
