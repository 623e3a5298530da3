import Mathlib
import LatexPreview.Proofs.Convert.Untouched
import LatexPreview.Proofs.Cover.Declarations

/-!
# A document with a cover page, without its declarations

What is left of a document with a cover page, when the declarations of all kinds have been taken
away, is what is left of the document, with what is left of the page in between.

* `KeepsApart`: no declaration in a text depends on what follows it
* `LeavesAll`: what is left of a text, kind by kind
* `KeepsApart.removeAll_eq`: what is left of a text behind one that is kept apart
* `Document.exists_stripped`: what is left of a document, with a page and without one
-/

namespace LatexPreview

open Pattern Text

/-! ## All kinds of declarations -/

/-- Removes declarations of a kind. -/
def removed (e : Pattern × Extent) (s : Text) : Text :=
  match e.2 with
  | .all => e.1.erase s
  | .firstOnly => e.1.eraseFirst s

/-- Removes declarations of some kinds, one kind after the other. -/
def removeAll (ds : List (Pattern × Extent)) (s : Text) : Text := ds.foldl (fun s e => removed e s) s

theorem stripDeclarations_eq (s : Text) :
    stripDeclarations s = (removeAll declarations s).trim := rfl

theorem removeAll_append (ds es : List (Pattern × Extent)) (s : Text) :
    removeAll (ds ++ es) s = removeAll es (removeAll ds s) := List.foldl_append

theorem removeAll_declarations (s : Text) : removeAll declarations s =
    removeAll layoutDeclarations (removeAll documentTags (removeAll packageDeclarations s)) := by
  rw [declarations_eq, removeAll_append packageDeclarations, removeAll_append documentTags]

/-- The text is not changed by what follows it when declarations are removed, and something is true
of what is left of it. -/
def KeepsApart (Q : Text → Prop) : List (Pattern × Extent) → Text → Prop
  | [], x => Q x
  | (p, .all) :: ds, x => p.Apart none x ∧ KeepsApart Q ds (p.erase x)
  | (p, .firstOnly) :: ds, x => (∀ s, p.Skips none x s) ∧ KeepsApart Q ds x

theorem keepsApart_append {Q : Text → Prop} (ds es : List (Pattern × Extent)) {x : Text} :
    KeepsApart Q (ds ++ es) x ↔ KeepsApart (KeepsApart Q es) ds x := by
  induction ds generalizing x with
  | nil => rfl
  | cons e ds ih =>
    obtain ⟨p, extent⟩ := e
    cases extent <;> simp only [List.cons_append, KeepsApart, ih]

theorem keepsApart_nil {Q : Text → Prop} (hQ : Q []) {ds : List (Pattern × Extent)}
    (hds : ∀ e ∈ ds, e.1.Consumes) : KeepsApart Q ds [] := by
  induction ds with
  | nil => exact hQ
  | cons e ds ih =>
    obtain ⟨p, extent⟩ := e
    have hp := hds (p, extent) (by simp)
    have hlater := ih fun e he => hds e (by simp [he])
    cases extent with
    | firstOnly => exact ⟨fun _ => trivial, hlater⟩
    | all =>
      have herase : p.erase [] = [] := by
        rw [erase_eq, slicedFrom_nil hp]
        rfl
      exact ⟨apart_nil hp, herase.symm ▸ hlater⟩

/-- What is left of a text, kind by kind. -/
def LeavesAll : List (Pattern × Extent) → Text → Text → Prop
  | [], x, y => x = y
  | (p, _) :: ds, x, y => ∃ z, p.Leaves x z ∧ LeavesAll ds z y

theorem LeavesAll.append {ds : List (Pattern × Extent)} {x y x' y' : Text} (h : LeavesAll ds x y)
    (h' : LeavesAll ds x' y') : LeavesAll ds (x ++ x') (y ++ y') := by
  induction ds generalizing x x' with
  | nil => exact congrArg₂ (· ++ ·) h h'
  | cons e ds ih =>
    obtain ⟨z, hz, hlater⟩ := h
    obtain ⟨z', hz', hlater'⟩ := h'
    exact ⟨z ++ z', hz.append hz', ih hlater hlater'⟩

/-! ## What is left of a page -/

/-- How a bracket looks that asks for space behind a row, and that begins displayed math. -/
def bracket : Text := ['\\', '[']

/-- What is left of a page ends as the page does, and has brackets if the page has. -/
def Remains {spaced : Bool} (m m' : Markup spaced) : Prop :=
  m'.text.getLast? = m.text.getLast? ∧ (bracket <:+: m.text → bracket <:+: m'.text)

section Remains

variable {spaced : Bool}

theorem getLast?_without (taken : PageSetting → Bool) (m : Markup spaced) :
    (m.without taken).text.getLast? = m.text.getLast? := by
  refine Markup.without_rel (R := fun x y => y.getLast? = x.getLast?) rfl (fun hx hx' => ?_)
    (fun _ _ _ => rfl) (fun _ _ _ => rfl) (fun _ _ => rfl) (fun x => ?_) m
  · rw [List.getLast?_append, List.getLast?_append, hx, hx']
  · cases taken x <;> simp

/-- Brackets of a page do not stand in declarations. -/
theorem bracket_without (taken : PageSetting → Bool) (m : Markup spaced)
    (h : bracket <:+: m.text) : bracket <:+: (m.without taken).text := by
  have hcommands : ∀ {names : List Text} {x : Text}, (∀ s, Commands names x s) →
      (names.all fun n => decide (Clash n ['['])) = true → ∀ s, Avoids bracket x s :=
    fun hx hnames s => (hx s).avoids (by simp) fun n hn =>
      of_decide_eq_true (List.all_eq_true.1 hnames n hn)
  have hpage : pageNames.all fun n => n == ['['] || decide (Clash n ['[']) := by decide
  have hsettings : settingNames.all fun n => decide (Clash n ['[']) := by decide
  have hall : bracket <:+: (m.without taken).text ∨ ∀ s, Avoids bracket m.text s := by
    refine Markup.without_rel (R := fun x y => bracket <:+: y ∨ ∀ s, Avoids bracket x s)
      (.inr fun _ => trivial) ?append (fun c hc _ => ?char) (fun name hname hplain => ?word)
      (fun c hc => ?row) (fun x => ?setting) m
    case append =>
      rintro x y x' y' (hy | hx) (hy' | hx')
      · exact .inl (hy.trans (List.prefix_append _ _).isInfix)
      · exact .inl (hy.trans (List.prefix_append _ _).isInfix)
      · exact .inl (hy'.trans (List.suffix_append _ _).isInfix)
      · exact .inr fun s => avoids_append.2 ⟨hx _, hx' s⟩
    case char =>
      exact .inr fun s => avoids_of_not_mem fun hmem => hc (List.mem_singleton.1 hmem)
    case word =>
      have hname := List.all_eq_true.1 hpage name hname
      simp only [Bool.or_eq_true, beq_iff_eq, decide_eq_true_eq] at hname
      rcases hname with rfl | hclash
      · exact .inl List.infix_rfl
      · refine .inr fun s => (commands_word (List.mem_singleton_self name) hplain).avoids (by simp) ?_
        intro n hn
        rwa [List.mem_singleton.1 hn]
    case row =>
      simp only [rowEnds, if_true, List.mem_append, List.mem_cons, List.not_mem_nil, or_false] at hc
      rcases hc with (rfl | rfl) | rfl
      · exact .inr fun s => by simp [Avoids, bracket]
      · exact .inr fun s => by simp [Avoids, bracket]
      · exact .inl (List.suffix_cons '\\' bracket).isInfix
    case setting =>
      exact .inr fun s => avoids_append.2
        ⟨hcommands (fun s => x.commands (s := s)) hsettings _, avoids_of_not_mem (by simp)⟩
  refine hall.resolve_right fun havoids => ?_
  exact (avoids_nil_iff (by simp [bracket])).1 (havoids []) h

end Remains

section Kinds

variable {ds : List (Pattern × Extent)}

theorem leavesAll_opening (hds : ∀ e ∈ ds, ∃ taken ws, Takes e.1 taken ws) :
    LeavesAll ds openingTag openingTag := by
  induction ds with
  | nil => rfl
  | cons e ds ih =>
    obtain ⟨taken, ws, htakes⟩ := hds e (by simp)
    exact ⟨_, htakes.leaves_word (by simp [pageNames]) not_mem_openingWord,
      ih fun e he => hds e (by simp [he])⟩

/-- What is left of a page is the source of a tree again. -/
theorem exists_leavesAll (hds : ∀ e ∈ ds, ∃ taken ws, Takes e.1 taken ws) {spaced : Bool}
    (m : Markup spaced) : ∃ m' : Markup spaced, LeavesAll ds m.text m'.text ∧ Remains m m' := by
  induction ds generalizing m with
  | nil => exact ⟨m, rfl, rfl, id⟩
  | cons e ds ih =>
    obtain ⟨taken, ws, htakes⟩ := hds e (by simp)
    obtain ⟨m', hm', hlast, hbracket⟩ := ih (fun e he => hds e (by simp [he])) (m.without taken)
    exact ⟨m', ⟨_, htakes.leaves m, hm'⟩, hlast.trans (getLast?_without taken m),
      fun h => hbracket (bracket_without taken m h)⟩

/-- What is left of a text behind one that is kept apart, and of what stands in between. -/
theorem KeepsApart.removeAll_eq {Q : Text → Prop}
    (hds : ∀ e ∈ ds, e.2 = .all ∧ ∃ taken ws, Takes e.1 taken ws) {x : Text}
    (h : KeepsApart Q ds x) : ∃ x', Q x' ∧ ∀ y y' s, LeavesAll ds y y' →
      removeAll ds (x ++ (y ++ s)) = x' ++ (y' ++ removeAll ds s) := by
  induction ds generalizing x with
  | nil =>
    refine ⟨x, h, fun y y' s hy => ?_⟩
    obtain rfl : y = y' := hy
    rfl
  | cons e ds ih =>
    obtain ⟨p, extent⟩ := e
    obtain ⟨rfl, taken, ws, htakes⟩ := hds (p, extent) (by simp)
    obtain ⟨x', hx', hlater⟩ := ih (fun e he => hds e (by simp [he])) h.2
    refine ⟨x', hx', fun y y' s hy => ?_⟩
    obtain ⟨z, hz, hy⟩ := hy
    have hfront : p.erase (x ++ (y ++ s)) = p.erase x ++ (z ++ p.erase s) := by
      have hbehind : ∀ b, p.eraseFrom b s = p.eraseFrom none s := fun b =>
        eraseFrom_congr htakes.opens.consumes (htakes.edges b none) s
      rw [erase_eq, erase_eq, erase_eq]
      show p.eraseFrom none _ = p.eraseFrom none x ++ (z ++ p.eraseFrom none s)
      rw [h.1.eraseFrom_append, (hz _).1.eraseFrom_append, (hz _).2, hbehind]
    calc removeAll ((p, .all) :: ds) (x ++ (y ++ s))
        = removeAll ds (p.erase (x ++ (y ++ s))) := rfl
      _ = removeAll ds (p.erase x ++ (z ++ p.erase s)) := by rw [hfront]
      _ = x' ++ (y' ++ removeAll ds (p.erase s)) := hlater z y' _ hy

end Kinds

/-! ## The tags around a document -/

namespace Pattern

variable {p : Pattern} {b b' : Option Char} {x m s : Text}

theorem eraseFirst_eq (p : Pattern) (s : Text) :
    p.eraseFirst s = ((p.first? none s).map fun h => h.gap ++ h.stop.rest).getD s := by
  cases hfind : p.find? s with
  | none =>
    rw [eraseFirst, cutFirst_eq_of_find? hfind, show p.first? none s = none from hfind]
    rfl
  | some h => rw [eraseFirst_of_find? hfind, show p.first? none s = some h from hfind]; rfl

/-- Behind two characters that the pattern does not tell from each other, the same is left in front
of the first match and behind it. -/
theorem first?_congr (h : p.EdgesAgree b b') (s : Text) :
    (p.first? b s).map (fun h => h.gap ++ h.stop.rest) =
      (p.first? b' s).map fun h => h.gap ++ h.stop.rest := by
  have hsame := at?_congr h s
  cases s with
  | nil =>
    simp only [first?, Option.map_map]
    simpa [Function.comp_def] using hsame
  | cons c s =>
    rw [first?, first?]
    cases hat : p.at? b (c :: s) with
    | none =>
      rw [hat, Option.map_none, eq_comm, Option.map_eq_none_iff] at hsame
      rw [hsame]
    | some stop =>
      rw [hat, Option.map_some] at hsame
      obtain ⟨stop', hat', hrest⟩ := Option.map_eq_some_iff.1 hsame.symm
      rw [hat']
      exact congrArg some hrest.symm

/-- In front of the first match nothing is changed. -/
theorem eraseFirst_skips (hp : ∀ b, p.EdgesAgree b none) (h : p.Skips none x s) :
    p.eraseFirst (x ++ s) = x ++ p.eraseFirst s := by
  have hgaps : ∀ o : Option Hit, (o.map fun h => { h with gap := x ++ h.gap }).map
      (fun h => h.gap ++ h.stop.rest) = (o.map fun h => h.gap ++ h.stop.rest).map (x ++ ·) := by
    rintro (_ | h)
    · rfl
    · exact congrArg some (List.append_assoc x h.gap h.stop.rest)
  rw [eraseFirst_eq, eraseFirst_eq, first?_skips h, hgaps, first?_congr (hp _)]
  cases (p.first? none s).map fun h => h.gap ++ h.stop.rest <;> rfl

theorem eraseFirst_hit {stop : Cursor} (hm : m ≠ []) (h : p.at? none (m ++ s) = some stop)
    (hrest : stop.rest = s) : p.eraseFirst (m ++ s) = s := by
  rw [eraseFirst_eq, first?_of_at? hm h hrest]
  exact hrest

end Pattern

/-- In a page and in the lines that load packages, no tag begins or ends a document. -/
theorem Markup.skips_tag {spaced : Bool} (m : Markup spaced) (declaration : Declaration) {p : Pattern}
    (hp : p.Leads [declaration.text]) (b : Option Char) (s : Text) : p.Skips b m.text s := by
  refine hp.skips fun w hw => ?_
  rw [List.mem_singleton.1 hw, declaration.text_eq]
  refine (m.commands s).avoids ?_ fun n hn => declaration.clash hn
  cases declaration <;> decide

/-- What is left of the tags around a document: nothing of the first one, and behind it what is left
of the rest.  In between there may be pages. -/
theorem removeAll_tags {x r : Text} {spaced spaced' : Bool} (l : Markup spaced) (m : Markup spaced')
    (hopening : ∀ s, documentOpening.Skips none x s)
    (hclosing : ∀ s, (closing "document").Skips none x s) :
    removeAll documentTags
      (x ++ (l.text ++ (openingTag ++ (m.text ++ r)))) =
        x ++ (l.text ++ (m.text ++ (closing "document").eraseFirst r)) := by
  have hleads : (closing "document").Leads [Declaration.endDocument.text] := by
    have hlit := leads_lit (w := Declaration.endDocument.text) []
    rwa [List.append_nil] at hlit
  have hedges : ∀ b, (closing "document").EdgesAgree b none := fun b => edgesAgree_lit _
  have hedges' : ∀ b, documentOpening.EdgesAgree b none := fun b => edgesAgree_lit _
  obtain ⟨stop, hstop, hrest⟩ := at?_opening none (m.text ++ r)
  have hfirst : documentOpening.eraseFirst (x ++ (l.text ++ (openingTag ++ (m.text ++ r)))) =
      x ++ (l.text ++ (m.text ++ r)) := by
    rw [eraseFirst_skips hedges' (hopening _), eraseFirst_skips hedges'
      (l.skips_tag .beginDocument leads_documentOpening _ _),
      eraseFirst_hit (by simp [openingTag]) hstop hrest]
  show (closing "document").eraseFirst (documentOpening.eraseFirst _) = _
  rw [hfirst, eraseFirst_skips hedges (hclosing _),
    eraseFirst_skips hedges (l.skips_tag .endDocument hleads _ _),
    eraseFirst_skips hedges (m.skips_tag .endDocument hleads _ _)]

/-- What is left of what follows the tag that begins a document. -/
def strippedBody (rest : Text) : Text :=
  removeAll layoutDeclarations
    ((closing "document").eraseFirst (removeAll packageDeclarations rest))

/-- What is left of a document in front of which there is a text that is kept apart. -/
theorem KeepsApart.removeAll_document {Q : Text → Prop} {x : Text}
    (h : KeepsApart Q declarations x) : ∃ x', Q x' ∧
      ∀ {spaced : Bool} (l m l' m' : Markup spaced) (z rest : Text),
        LeavesAll packageDeclarations l.text l'.text →
        LeavesAll packageDeclarations m.text m'.text →
        LeavesAll layoutDeclarations (l'.text ++ m'.text) z →
        removeAll declarations (x ++ (l.text ++ (openingTag ++ (m.text ++ rest)))) =
          x' ++ (z ++ strippedBody rest) := by
  have hpackage : ∀ e ∈ packageDeclarations, e.2 = .all ∧ ∃ taken ws, Takes e.1 taken ws :=
    fun e he => exists_takes (List.mem_append_left _ he)
  have hlayout : ∀ e ∈ layoutDeclarations, e.2 = .all ∧ ∃ taken ws, Takes e.1 taken ws :=
    fun e he => exists_takes (List.mem_append_right _ he)
  rw [declarations_eq, keepsApart_append packageDeclarations] at h
  obtain ⟨x₁, htags, hfirst⟩ := h.removeAll_eq hpackage
  obtain ⟨hopening, hclosing, hx₁⟩ := (keepsApart_append documentTags layoutDeclarations).1 htags
  obtain ⟨x₂, hx₂, hlast⟩ := hx₁.removeAll_eq hlayout
  refine ⟨x₂, hx₂, fun l m l' m' z rest hl hm hz => ?_⟩
  have htag := leavesAll_opening fun e he => (hpackage e he).2
  have hleft := hfirst _ _ rest (hl.append (htag.append hm))
  simp only [List.append_assoc] at hleft
  calc removeAll declarations (x ++ (l.text ++ (openingTag ++ (m.text ++ rest))))
      = removeAll layoutDeclarations (removeAll documentTags
          (removeAll packageDeclarations (x ++ (l.text ++ (openingTag ++ (m.text ++ rest)))))) :=
        removeAll_declarations _
    _ = removeAll layoutDeclarations (x₁ ++ ((l'.text ++ m'.text) ++
          (closing "document").eraseFirst (removeAll packageDeclarations rest))) := by
        rw [hleft, removeAll_tags l' m' hopening hclosing, List.append_assoc]
    _ = x₂ ++ (z ++ strippedBody rest) := hlast _ _ _ hz

theorem leavesAll_nil {ds : List (Pattern × Extent)}
    (hds : ∀ e ∈ ds, ∃ taken ws, Takes e.1 taken ws) : LeavesAll ds [] [] := by
  induction ds with
  | nil => rfl
  | cons e ds ih =>
    obtain ⟨taken, ws, htakes⟩ := hds e (by simp)
    exact ⟨[], leaves_of_skips htakes.opens.consumes fun _ _ => trivial,
      ih fun e he => hds e (by simp [he])⟩

/-- What is left of a document is the same with a page and without one, but for what is left of the
page, which stands in between. -/
theorem Document.exists_stripped {Q : Text → Prop} (d : Document)
    (h : KeepsApart Q declarations d.front) : ∃ x, Q x ∧
      removeAll declarations d.text = x ++ removeAll declarations (openingTag ++ d.rest) ∧
      ∀ c : Cover, ∃ m : Markup c.spaced, removeAll declarations (d.withCover c) =
        x ++ (m.text ++ removeAll declarations (openingTag ++ d.rest)) ∧
          (c.page.text.getLast? = some '\n' → m.text.getLast? = some '\n') ∧
          (bracket <:+: c.page.text → bracket <:+: m.text) := by
  have hpackage : ∀ e ∈ packageDeclarations, ∃ taken ws, Takes e.1 taken ws :=
    fun e he => (exists_takes (List.mem_append_left _ he)).2
  have hlayout : ∀ e ∈ layoutDeclarations, ∃ taken ws, Takes e.1 taken ws :=
    fun e he => (exists_takes (List.mem_append_right _ he)).2
  have hnil : ∀ {x x' : Text}, (∀ {spaced : Bool} (l m l' m' : Markup spaced) (z rest : Text),
        LeavesAll packageDeclarations l.text l'.text →
        LeavesAll packageDeclarations m.text m'.text →
        LeavesAll layoutDeclarations (l'.text ++ m'.text) z →
        removeAll declarations (x ++ (l.text ++ (openingTag ++ (m.text ++ rest)))) =
          x' ++ (z ++ strippedBody rest)) →
      removeAll declarations (x ++ (openingTag ++ d.rest)) = x' ++ strippedBody d.rest := by
    intro x x' hall
    have hplain := @hall false .nil .nil .nil .nil [] d.rest (leavesAll_nil hpackage)
      (leavesAll_nil hpackage) (leavesAll_nil hlayout)
    simpa only [Markup.text, List.nil_append] using hplain
  have hbody : removeAll declarations (openingTag ++ d.rest) = strippedBody d.rest := by
    obtain ⟨x, rfl, hx⟩ := (keepsApart_nil (Q := (· = [])) rfl fun e he =>
      (opens_of_mem_declarations he).consumes).removeAll_document
    have hplain := hnil hx
    rwa [List.nil_append, List.nil_append] at hplain
  obtain ⟨x, hx, hall⟩ := h.removeAll_document
  rw [hbody, Document.text]
  refine ⟨x, hx, hnil hall, fun c => ?_⟩
  obtain ⟨l, hl⟩ := isMarkup_packageLines c.packages
  obtain ⟨l', hl', -⟩ := exists_leavesAll hpackage l
  obtain ⟨m', hm', hlast, hbracket⟩ := exists_leavesAll hpackage c.page
  obtain ⟨m, hm, hlast', hbracket'⟩ := exists_leavesAll hlayout (l'.append m')
  rw [Markup.text_append] at hm hlast' hbracket'
  refine ⟨m, ?_, fun hend => ?_, fun hmem => ?_⟩
  · rw [Document.withCover, ← hl]
    exact hall l c.page l' m' m.text d.rest hl' hm' hm
  · rw [hlast', List.getLast?_append, hlast, hend]
    rfl
  · exact hbracket' ((hbracket hmem).trans (List.suffix_append _ _).isInfix)

end LatexPreview
