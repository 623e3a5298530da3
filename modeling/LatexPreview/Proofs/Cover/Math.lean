import Mathlib
import LatexPreview.Proofs.Convert.Growth
import LatexPreview.Proofs.Cover.PageMath

/-!
# The math of a document with a cover page

A cover page leaves the math of a document as it is, with one exception: rows that ask for space
write it in brackets behind backslashes, and the first of these is taken for the beginning of
displayed math.  It reaches to the first closing bracket of the document that is not within double
dollars.

* `mathIn_of_skips`: nothing is changed if no bracket of the page is closed
* `mathIn_of_bracket`: otherwise, the math is another one
* `math_injectCoverPage`: the math is the same exactly if no bracket of the page is closed
-/

namespace LatexPreview

open Pattern Text

/-! ## Math in order -/

/-- The math that is lifted out of a text on a draft. -/
def mathIn (d : Draft) (s : Text) : List Text :=
  ((liftAll mathSpanKinds s).run d).2.math.contents

theorem mathIn_trim (d : Draft) (s : Text) : mathIn d s.trim = mathIn d s := by
  obtain ⟨l, t, -, hdraft, -⟩ := liftAll_trim (fun kind hkind => delimited_mathSpanKinds hkind) s d
  exact congrArg (fun d : Draft => d.math.contents) hdraft.symm

/-- The math of a document is lifted out of what is left of it without declarations. -/
theorem math_convert (latex : Text) :
    (convert latex).math.map Prod.snd = mathIn .fresh (removeAll declarations latex) := by
  have hcontents : (convert latex).math.map Prod.snd = mathIn .fresh (stripDeclarations latex) := by
    rw [convert_math, PlaceholderTable.entries, List.map_snd_zip, liftedDraft, liftMath_eq, mathIn,
      liftAll]
    simp [PlaceholderTable.tokens, PlaceholderTable.size]
  exact hcontents.trans (mathIn_trim .fresh _)

/-! ## A page in between -/

/-- The kinds of spans behind the first one. -/
def bracketKinds : List (Pattern × MathPlace) := (displayBrackets, .block) :: laterKinds

theorem delimited_displayDollars : Delimited displayDollars :=
  @delimited_mathSpanKinds (displayDollars, .block) (by simp [mathSpanKinds])

theorem delimited_displayBrackets : Delimited displayBrackets :=
  @delimited_mathSpanKinds (displayBrackets, .block) (by simp [mathSpanKinds])

theorem delimited_laterKinds {kind : Pattern × MathPlace} (h : kind ∈ laterKinds) :
    Delimited kind.1 :=
  delimited_mathSpanKinds (by
    rw [mathSpanKinds_eq]
    exact List.mem_cons_of_mem _ (List.mem_cons_of_mem _ h))

/-- What the first kind of spans leaves of two texts, one behind the other, and what it stores. -/
structure FirstPass where
  front : Text
  rest : Text
  draft : Draft

/-- The first kind of spans is lifted out of two texts. -/
def firstPass (d : Draft) (x r : Text) : FirstPass :=
  let first := (liftPass (displayDollars, .block) x).run d
  let second := (liftPass (displayDollars, .block) r).run first.2
  ⟨first.1, second.1, second.2⟩

theorem LiftsApart.displayDollars {x : Text} (h : LiftsApart mathSpanKinds x) :
    LiftsApart ((LatexPreview.displayDollars, .block) :: bracketKinds) x := by
  rwa [mathSpanKinds_eq] at h

section Page

variable {spaced : Bool} {d : Draft} {x : Text} {m : Markup spaced}

theorem mathIn_append (hx : LiftsApart mathSpanKinds x) (r : Text) : mathIn d (x ++ r) =
    ((liftAll bracketKinds ((firstPass d x r).front ++ (firstPass d x r).rest)).run
      (firstPass d x r).draft).2.math.contents := by
  have hrun := hx.displayDollars.liftPass_append delimited_displayDollars r d
  have hkinds : mathSpanKinds = (displayDollars, .block) :: bracketKinds := mathSpanKinds_eq
  simp only [mathIn, hkinds, liftAll_cons_run, hrun, firstPass]

/-- No span of the first kind starts in a page. -/
theorem firstPass_page (hlast : m.text.getLast? = some '\n') (r : Text) :
    firstPass d x (m.text ++ r) =
      ⟨(firstPass d x r).front, m.text ++ (firstPass d x r).rest, (firstPass d x r).draft⟩ := by
  have hend : m.text.getLast? ≠ some '\\' := by
    rw [hlast]
    simp
  have hrun := @liftPass_skips (displayDollars, .block) _ delimited_displayDollars hend _
    (m.skips_displayDollars hlast none r) ((liftPass (displayDollars, .block) x).run d).2
  rw [firstPass, hrun]
  rfl

/-- Nothing is changed if no bracket of the page is closed. -/
theorem mathIn_of_skips (hx : LiftsApart mathSpanKinds x) (hlast : m.text.getLast? = some '\n')
    {r : Text} (hskips : displayBrackets.Skips none m.text (firstPass d x r).rest) :
    mathIn d (x ++ (m.text ++ r)) = mathIn d (x ++ r) := by
  have hend : m.text.getLast? ≠ some '\\' := by
    rw [hlast]
    simp
  have hfront : LiftsApart bracketKinds (firstPass d x r).front := hx.displayDollars.2.2 d
  rw [mathIn_append hx, mathIn_append hx, firstPass_page hlast]
  refine congrArg (fun d : Draft => d.math.contents) ?_
  rw [bracketKinds, liftAll_cons_run, liftAll_cons_run,
    hfront.liftPass_append delimited_displayBrackets,
    hfront.liftPass_append delimited_displayBrackets,
    @liftPass_skips (displayBrackets, .block) _ delimited_displayBrackets hend _ hskips]
  exact (hfront.2.2 (firstPass d x r).draft).around (fun kind hkind => delimited_laterKinds hkind)
    hend (fun kind hkind s => m.skips_laterKinds hkind none s) _ _

/-- A span of a later kind does not start with a bracket. -/
theorem not_bracket_of_found {kind : Pattern × MathPlace} (hkind : kind ∈ laterKinds) {h : Hit}
    (hfound : kind.1.Found h) : ¬ bracket <+: h.matched := by
  have hleads : ∀ {w : Text}, kind.1.Leads [w] → ¬ bracket <+: w → ¬ w <+: bracket →
      ¬ bracket <+: h.matched := by
    rintro w hw hclash hclash' hp
    obtain ⟨v, hv, y, hy⟩ := hw.found hfound
    obtain rfl := List.mem_singleton.1 hv
    rw [hy] at hp
    rcases List.prefix_or_prefix_of_prefix hp (List.prefix_append v y) with hp | hp
    · exact hclash hp
    · exact hclash' hp
  simp only [laterKinds, List.mem_cons, List.not_mem_nil, or_false] at hkind
  rcases hkind with rfl | rfl | rfl
  · have hbegin : displayEnvironment.Leads ['\\' :: "begin".toList] :=
      (((((((leads_command "begin").append _).append _).append _).append _).append _).append
        _).append _ |>.append _
    exact hleads hbegin (by decide) (by decide)
  · exact hleads (((leads_lit ['\\', '('] []).append _).append _) (by decide) (by decide)
  · have hdollar : inlineDollars.Leads [['$']] := by
      intro s t h
      obtain ⟨w, hw⟩ := opens_inlineDollars s t h
      exact ⟨['$'], by simp, w, hw⟩
    exact hleads hdollar (by decide) (by decide)

/-- The kinds behind brackets store spans that start with no bracket. -/
theorem exists_contents_bracketKinds (s : Text) (d : Draft) :
    ∃ l, ((liftAll bracketKinds s).run d).2.math.contents =
        d.math.contents ++ (displayBrackets.slicedFrom none s).slices ++ l ∧
      ∀ v ∈ l, ¬ bracket <+: v := by
  obtain ⟨l, hl, hplain⟩ := exists_contents_liftAll
    (P := fun v => ¬ bracket <+: v) (fun kind hkind h => not_bracket_of_found hkind)
    ((liftPass (displayBrackets, .block) s).run d).1 ((liftPass (displayBrackets, .block) s).run d).2
  refine ⟨l, ?_, hplain⟩
  rw [bracketKinds, liftAll_cons_run, hl, liftPass_run, contents_liftFrom]

theorem bracket_of_mem_slices {s v : Text} (h : v ∈ (displayBrackets.slicedFrom none s).slices) :
    bracket <+: v := by
  have hleads : displayBrackets.Leads [bracket] :=
    ((leads_lit bracket []).append _).append _
  obtain ⟨hit, hfound, rfl⟩ := exists_found_of_mem_slices h
  obtain ⟨w, hw, y, hy⟩ := hleads.found hfound
  rw [hy, List.mem_singleton.1 hw]
  exact List.prefix_append _ _

/-- A bracket of the page that is closed takes the place of another one or adds to them. -/
theorem mathIn_of_bracket (hx : LiftsApart mathSpanKinds x) (hlast : m.text.getLast? = some '\n')
    {r : Text} (hbracket : bracket <:+: m.text) (hclosing : closingBracket <:+: (firstPass d x r).rest) :
    mathIn d (x ++ (m.text ++ r)) ≠ mathIn d (x ++ r) := by
  have hfront : LiftsApart bracketKinds (firstPass d x r).front := hx.displayDollars.2.2 d
  obtain ⟨long, later, hlong, hshort⟩ :=
    exists_slices_bracket hbracket m.avoids_closingBracket hclosing
  -- What is stored: the brackets in front, those behind the page's, and what starts with no bracket.
  have hcontents : ∀ s, ∃ l, ((liftAll bracketKinds ((firstPass d x r).front ++ s)).run
      (firstPass d x r).draft).2.math.contents = (firstPass d x r).draft.math.contents ++
        (displayBrackets.slicedFrom none (firstPass d x r).front).slices ++
        (displayBrackets.slicedFrom none s).slices ++ l ∧ ∀ v ∈ l, ¬ bracket <+: v := by
    intro s
    obtain ⟨l, hl, hplain⟩ := exists_contents_bracketKinds ((firstPass d x r).front ++ s)
      (firstPass d x r).draft
    have hcut : (displayBrackets.slicedFrom none ((firstPass d x r).front ++ s)).slices =
        (displayBrackets.slicedFrom none (firstPass d x r).front).slices ++
          (displayBrackets.slicedFrom none s).slices := by
      rw [hfront.1 s, Sliced.slices_append]
      exact congrArg (_ ++ Sliced.slices ·)
        (slicedFrom_congr opens_displayBrackets.consumes (displayBrackets_edges _ none) s)
    exact ⟨l, by rw [hl, hcut]; simp, hplain⟩
  obtain ⟨l, hl, hplain⟩ := hcontents (m.text ++ (firstPass d x r).rest)
  obtain ⟨l', hl', hplain'⟩ := hcontents (firstPass d x r).rest
  rw [mathIn_append hx, mathIn_append hx, firstPass_page hlast]
  simp only [hl, hl', hlong, List.append_assoc]
  intro hsame
  have htail := List.append_cancel_left (List.append_cancel_left hsame)
  rcases hshort with hnone | ⟨short, hshort, hless⟩
  · have hcount : ∀ l : List Text, (∀ v ∈ l, ¬ bracket <+: v) →
        l.countP (fun v => decide (bracket <+: v)) = 0 := fun l hl =>
      List.countP_eq_zero.2 fun v hv => by simpa using hl v hv
    have hfirst : bracket <+: long := bracket_of_mem_slices (hlong ▸ List.mem_cons_self)
    have hcounts := congrArg (List.countP fun v => decide (bracket <+: v)) htail
    rw [hnone, List.cons_append, List.countP_cons_of_pos (by simpa using hfirst),
      List.countP_append, List.countP_append, hcount l hplain, hcount l' hplain'] at hcounts
    omega
  · rw [hshort] at htail
    obtain ⟨rfl, -⟩ := List.cons.inj htail
    exact absurd hless (lt_irrefl _)

end Page

/-! ## Closing brackets -/

/-- In place of a displayed span stands nothing that a word of delimiters reaches into. -/
theorem storeSpans_block {d : Draft} (hd : d.blocks.name = Draft.blockName) (l : List Text) :
    (∀ token ∈ ((storeSpans .block l).run d).1,
      token ≠ [] ∧ ∀ c ∈ mathDelimiters, c ∉ token) ∧
      ((storeSpans .block l).run d).2.blocks.name = Draft.blockName := by
  induction l generalizing d with
  | nil => exact ⟨by simp [storeSpans, StateT.run, pure, StateT.pure], hd⟩
  | cons span l ih =>
    have hrun : (storeSpans .block (span :: l)).run d =
        (((liftSpan .block span).run d).1 ::
          ((storeSpans .block l).run ((liftSpan .block span).run d).2).1,
          ((storeSpans .block l).run ((liftSpan .block span).run d).2).2) := by
      rw [storeSpans, List.mapM_cons]
      rfl
    have htoken : ((liftSpan .block span).run d).1 =
        "\n\n".toList ++ placeholder Draft.blockName d.blocks.size ++ "\n\n".toList := by
      rw [← hd]
      rfl
    obtain ⟨hlater, hname⟩ := ih ((liftSpan_blockName .block span d).trans hd)
    rw [hrun]
    refine ⟨fun token hmem => ?_, hname⟩
    rcases List.mem_cons.1 hmem with rfl | hmem
    · rw [htoken]
      refine ⟨by simp, fun c hc => ?_⟩
      have hplain : ∀ c ∈ mathDelimiters, c ≠ '_' ∧ c ∉ Draft.blockName ∧ c.isDigit = false ∧
          c ∉ "\n\n".toList := by
        simp [mathDelimiters, Draft.blockName]
      obtain ⟨hlow, hblock, hdigit, hline⟩ := hplain c hc
      exact List.not_mem_append (List.not_mem_append hline
        (not_mem_placeholder hlow hblock hdigit _)) hline
    · exact hlater token hmem

/-- A bracket is left open or closed in what stands around displayed spans. -/
theorem closingBracket_liftPass {d : Draft} (hd : d.blocks.name = Draft.blockName) (s : Text) :
    closingBracket <:+: ((liftPass (displayDollars, .block) s).run d).1 ↔
      ∃ part ∈ displayDollars.split s, closingBracket <:+: part := by
  have hlength := length_storeSpans .block (displayDollars.slicedFrom none s).slices d
  have hdelimiters : ∀ c ∈ closingBracket, c ∈ mathDelimiters := by
    simp [closingBracket, mathDelimiters]
  rw [liftPass_run, liftFrom_run, Pattern.split, Cut.parts_eq_gaps]
  exact Sliced.infix_refill (by simp [closingBracket]) hlength fun token htoken =>
    ⟨((storeSpans_block hd _).1 token htoken).1,
      fun c hc => ((storeSpans_block hd _).1 token htoken).2 c (hdelimiters c hc)⟩

theorem closingBracket_firstPass {d : Draft} (hd : d.blocks.name = Draft.blockName) (x r : Text) :
    closingBracket <:+: (firstPass d x r).rest ↔
      ∃ part ∈ displayDollars.split r.trim, closingBracket <:+: part := by
  have hname : ((liftPass (displayDollars, .block) x).run d).2.blocks.name = Draft.blockName := by
    rw [liftPass_run, liftFrom_run]
    exact (storeSpans_block hd _).2
  obtain ⟨l, t, hrest, -, hl, ht⟩ := @liftAll_trim [(displayDollars, .block)]
    (fun kind hkind => List.mem_singleton.1 hkind ▸ delimited_displayDollars) r
    ((liftPass (displayDollars, .block) x).run d).2
  have hpass : (firstPass d x r).rest = l ++ (((liftPass (displayDollars, .block) r.trim).run
      ((liftPass (displayDollars, .block) x).run d).2).1 ++ t) := hrest
  rw [hpass, infix_blanks (by simp [closingBracket]) (by simp [closingBracket, isBlank]) hl ht,
    closingBracket_liftPass hname]

/-! ## Fronts of documents -/

section Fronts

variable {x : Text}

/-- Math is lifted apart from what follows out of a text without delimiters. -/
theorem liftsApart_plain (hx : ∀ c ∈ mathDelimiters, c ∉ x) {kinds : List (Pattern × MathPlace)}
    (hkinds : ∀ kind ∈ kinds, Delimited kind.1) : LiftsApart kinds x := by
  induction kinds with
  | nil => trivial
  | cons kind kinds ih =>
    have hkind := hkinds kind (by simp)
    obtain ⟨c, hc, hopens⟩ := hkind.opens
    have hskips : ∀ s, kind.1.Skips none x s := hopens.skips (hx c hc)
    have hlast : x.getLast? ≠ some '\\' := fun hlast =>
      hx '\\' (by simp [mathDelimiters]) (List.mem_of_getLast? hlast)
    refine ⟨apart_of_skips hkind.consumes hskips, hlast, fun d => ?_⟩
    have hrun := liftPass_skips hkind hlast (hskips []) d
    have hnil : ((liftPass kind []).run d).1 = [] := by
      rw [liftPass_run, liftFrom_run, slicedFrom_nil hkind.consumes]
      rfl
    rw [List.append_nil, hnil, List.append_nil] at hrun
    rw [hrun]
    exact ih fun kind hkind => hkinds kind (by simp [hkind])

/-- A text without delimiters is kept apart. -/
theorem keepsApart_plain (hx : ∀ c ∈ mathDelimiters, c ∉ x) {ds : List (Pattern × Extent)}
    (hds : ∀ e ∈ ds, e ∈ declarations) : KeepsApart (LiftsApart mathSpanKinds) ds x := by
  induction ds with
  | nil => exact liftsApart_plain hx fun kind hkind => delimited_mathSpanKinds hkind
  | cons e ds ih =>
    obtain ⟨p, extent⟩ := e
    have hopens := opens_of_mem_declarations (hds (p, extent) (by simp))
    have hskips : ∀ s, p.Skips none x s := hopens.skips (hx '\\' (by simp [mathDelimiters]))
    have hlater := ih fun e he => hds e (by simp [he])
    cases extent with
    | firstOnly => exact ⟨hskips, hlater⟩
    | all =>
      have herase : p.erase x = x := by
        rw [erase_eq]
        exact eraseFrom_skips hopens.consumes hskips
      exact ⟨apart_of_skips hopens.consumes hskips, herase.symm ▸ hlater⟩

/-- A line that tells the class of the document is kept apart. -/
theorem keepsApart_documentClass (hline : '\n' ∉ x) (hbrace : '}' ∉ x) :
    KeepsApart (LiftsApart mathSpanKinds) declarations
      ('\\' :: "documentclass".toList ++ braced x ++ ['\n']) := by
  have hleaves := leaves_line (m := '\\' :: "documentclass".toList ++ braced x)
    (p := command "documentclass" ++ looseOption ++ looseArgument)
    (((opens_command _).append _).append _) (by simp) fun b s => by
      rw [List.append_assoc]
      exact exists_at?_command b s "documentclass" hline hbrace
  have hrest : KeepsApart (LiftsApart mathSpanKinds) declarations.tail ['\n'] :=
    keepsApart_plain (by simp [mathDelimiters]) fun e he => List.mem_of_mem_tail he
  have herase : (command "documentclass" ++ looseOption ++ looseArgument).erase
      ('\\' :: "documentclass".toList ++ braced x ++ ['\n']) = ['\n'] := by
    rw [erase_eq]
    exact (hleaves none).2
  exact ⟨(hleaves none).1, herase.symm ▸ hrest⟩

end Fronts

/-! ## Documents with a page -/

/-- A closing bracket stands in what follows the tag that begins the document, but not within double
dollars. -/
def Document.ClosesBracket (d : Document) : Prop :=
  ∃ part ∈ displayDollars.split (stripDeclarations (openingTag ++ d.rest)),
    closingBracket <:+: part

section Documents

variable {d : Document} (hfront : KeepsApart (LiftsApart mathSpanKinds) declarations d.front)

include hfront

/-- A page with brackets leaves the math as it is if none of them is closed. -/
theorem Document.math_of_bracket {c : Cover} (hlast : c.page.text.getLast? = some '\n')
    (hbracket : bracket <:+: c.page.text) :
    (convert (d.withCover c)).math.map Prod.snd = (convert d.text).math.map Prod.snd ↔
      ¬ d.ClosesBracket := by
  obtain ⟨x, hx, hdocument, hcover⟩ := d.exists_stripped hfront
  obtain ⟨m, hstripped, hlast', hbracket'⟩ := hcover c
  have hclosing := closingBracket_firstPass (d := .fresh) rfl x
    (removeAll declarations (openingTag ++ d.rest))
  rw [math_convert, math_convert, hdocument, hstripped, Document.ClosesBracket, stripDeclarations_eq,
    ← hclosing]
  by_cases hclosed : closingBracket <:+: (firstPass .fresh x
      (removeAll declarations (openingTag ++ d.rest))).rest
  · exact iff_of_false (mathIn_of_bracket hx (hlast' hlast) (hbracket' hbracket) hclosed)
      (not_not_intro hclosed)
  · exact iff_of_true (mathIn_of_skips hx (hlast' hlast)
      (skips_of_not_closed (m.not_closed hclosed))) hclosed

/-- A page without brackets leaves the math as it is. -/
theorem Document.math_of_unspaced {c : Cover} (hlast : c.page.text.getLast? = some '\n')
    (hspaced : c.spaced = false) :
    (convert (d.withCover c)).math.map Prod.snd = (convert d.text).math.map Prod.snd := by
  obtain ⟨names, spaced, page⟩ := c
  obtain rfl : spaced = false := hspaced
  obtain ⟨x, hx, hdocument, hcover⟩ := d.exists_stripped hfront
  obtain ⟨m, hstripped, hlast', -⟩ := hcover ⟨names, false, page⟩
  rw [math_convert, math_convert, hdocument, hstripped]
  refine mathIn_of_skips hx (hlast' hlast) (spans_displayBrackets.skips (fun f hf => ?_) none)
  rw [List.mem_singleton.1 hf]
  exact m.avoids_bracket _

end Documents

/-- The document with a page has the math of the document, in the same order, exactly if no bracket
of the page is closed: if the page is switched off or no row of it asks for space, or if what follows
the tag that begins the document holds no closing bracket outside of double dollars. -/
theorem math_injectCoverPage {page : CoverPage} (hpage : page.Textual) (d : Document)
    (hfront : KeepsApart (LiftsApart mathSpanKinds) declarations d.front) :
    ∃ out, injectCoverPage d.text page = .ok out ∧
      ((convert out).math.map Prod.snd = (convert d.text).math.map Prod.snd ↔
        ¬ ((page .enabled).isTruthy = true ∧ page.SpacesRows ∧ d.ClosesBracket)) := by
  by_cases henabled : (page .enabled).isTruthy = true
  case neg =>
    refine ⟨_, ?_, iff_of_true rfl fun h => henabled h.1⟩
    rw [injectCoverPage, if_neg henabled]
    rfl
  by_cases hspaces : page.SpacesRows
  case pos =>
    obtain ⟨names, body, hout, ⟨m, rfl⟩, hlast, hend⟩ :=
      injectCoverPage_eq hpage (fun _ => rfl) henabled d.first
    refine ⟨_, hout, (Document.math_of_bracket hfront (c := ⟨names, true, m⟩) hlast ?_).trans ?_⟩
    · exact (List.suffix_cons '\\' bracket).isInfix.trans (hend hspaces)
    · exact not_congr ⟨fun h => ⟨henabled, hspaces, h⟩, fun h => h.2.2⟩
  case neg =>
    obtain ⟨names, body, hout, ⟨m, rfl⟩, hlast, -⟩ :=
      injectCoverPage_eq hpage (fun h => absurd h hspaces) henabled d.first
    exact ⟨_, hout, iff_of_true
      (Document.math_of_unspaced hfront (c := ⟨names, false, m⟩) hlast rfl) fun h => hspaces h.2.1⟩

/-- A document with math, but without a closing bracket, keeps its math when a page names a
department. -/
theorem math_injectCoverPage_department :
    ∃ out, injectCoverPage
        "\\documentclass\x7ba\x7d\n\\begin\x7bdocument\x7d$$x$$ \\(y\\) $z$\\end\x7bdocument\x7d".toList
        (CoverPage.plain.write .department "$".toList) = .ok out ∧
      (convert out).math.map Prod.snd = ["$$x$$".toList, "\\(y\\)".toList, "$z$".toList] := by
  obtain ⟨out, hout, hmath⟩ := math_injectCoverPage
    (textual_plain.write (f := .department) (by decide) "$".toList)
    ⟨'\\' :: "documentclass".toList ++ braced ['a'] ++ ['\n'],
      "$$x$$ \\(y\\) $z$\\end\x7bdocument\x7d".toList,
      (avoids_append_iff not_mem_openingWord).2 ((avoids_nil_iff (by simp)).2 (by decide))⟩
    (keepsApart_documentClass (by decide) (by decide))
  refine ⟨out, hout, (hmath.2 fun h => absurd h.2.2 ?_).trans (by decide +kernel)⟩
  rw [Document.ClosesBracket]
  decide

/-- The row of a department asks for space behind it, in brackets that are read as displayed math: what
stands between them and the end of the document's own displayed math is taken for math. -/
theorem department_takes_math_over :
    ∃ out, injectCoverPage "\\begin\x7bdocument\x7d\\[x\\]\\end\x7bdocument\x7d".toList
        (CoverPage.plain.write .department "X".toList) = .ok out ∧
      (convert out).math.map Prod.snd ≠
        (convert "\\begin\x7bdocument\x7d\\[x\\]\\end\x7bdocument\x7d".toList).math.map
          Prod.snd := by
  let d : Document := ⟨[], "\\[x\\]\\end\x7bdocument\x7d".toList, trivial⟩
  have hpage := textual_plain.write (f := .department) (by decide) "X".toList
  obtain ⟨names, body, hout, ⟨m, rfl⟩, hlast, hend⟩ :=
    injectCoverPage_eq hpage (fun _ => rfl) rfl d.first
  have hbracket : bracket <:+: m.text :=
    (List.suffix_cons '\\' bracket).isInfix.trans (hend (.inl rfl))
  have hcloses : d.ClosesBracket := by
    rw [Document.ClosesBracket]
    decide
  exact ⟨_, hout, fun hsame => (Document.math_of_bracket (d := d) (c := ⟨names, true, m⟩)
    (keepsApart_plain (x := []) (by simp) fun _ he => he) hlast hbracket).1 hsame hcloses⟩

end LatexPreview
