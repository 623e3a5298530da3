import Mathlib
import LatexPreview.Proofs.Convert.LiftedMath
import LatexPreview.Proofs.Convert.Stages
import LatexPreview.Proofs.Pattern.Front

/-!
# Texts that reach a stage as they are

All stages but the last two go by patterns.  A text in which the patterns of the first stages do not
match is handed on by them, without a change to the draft.

* `Pattern.Passes`: a pattern does not match anywhere, `passes_iff` and `passes_of_count` tell when
* `Stage.patterns` are the patterns of a stage
* `Untouched`: none of the patterns in front of a stage matches in a text
* `Untouched.stageInput_eq`: such a text is what the stage is given
* `untouched_of_commands`: texts whose commands are all refused are of this kind
-/

namespace LatexPreview

open Pattern Text

/-! ## Patterns that do not match -/

namespace Pattern

/-- The pattern does not match anywhere in the text. -/
def Passes (p : Pattern) (s : Text) : Prop := p.Consumes ∧ p.Skips none s []

namespace Passes

variable {p : Pattern} {s : Text} (h : p.Passes s)

include h

theorem find?_eq_none : p.find? s = none := by
  have hfirst := first?_skips h.2
  rwa [List.append_nil, first?_nil h.1, Option.map_none] at hfirst

theorem cut_eq : p.cut s = ⟨[], s⟩ := cutFrom_eq_tail h.1 h.2

theorem replaceM_run {f : Hit → Drafting Text} (d : Draft) : (p.replaceM f s).run d = (s, d) := by
  rw [replaceM, h.cut_eq]
  rfl

theorem erase_eq : p.erase s = s := by
  rw [erase, replace, h.cut_eq]
  rfl

theorem eraseFirst_eq : p.eraseFirst s = s := by
  rw [eraseFirst, cutFirst_eq_of_find? h.find?_eq_none]
  rfl

end Passes

theorem Opens.passes {p : Pattern} {c : Char} {s : Text} (h : p.Opens c) (hs : c ∉ s) : p.Passes s :=
  ⟨h.consumes, h.skips hs []⟩

theorem skips_of_first? {p : Pattern} {b : Option Char} {s : Text} (h : p.first? b s = none) :
    p.Skips b s [] := by
  induction s generalizing b with
  | nil => trivial
  | cons c s ih =>
    rw [first?] at h
    split at h
    · exact absurd h (by simp)
    · rename_i hnone
      refine ⟨?_, ih (Option.map_eq_none_iff.1 h)⟩
      rwa [List.append_nil]

/-- A text is gone over if there is no match in it. -/
theorem passes_iff {p : Pattern} (hp : p.Consumes) {s : Text} : p.Passes s ↔ p.occursIn s = false := by
  refine ⟨fun h => occursIn_eq_false hp h.2, fun h => ⟨hp, skips_of_first? ?_⟩⟩
  simpa [occursIn, Pattern.find?] using h

theorem passes_of_count {p : Pattern} (hp : p.Consumes) {s : Text} (h : p.count s = 0) :
    p.Passes s := by
  refine ⟨hp, skips_of_first? ?_⟩
  cases s with
  | nil => exact first?_nil hp none
  | cons c s =>
    rw [count, cut, List.length_cons, cutAtMost] at h
    split at h
    · assumption
    · exact absurd h (by simp)

end Pattern

/-- Steps that change nothing, one after the other. -/
theorem foldlM_run_eq {α : Type} {f : Text → α → Drafting Text} {l : List α} {s : Text}
    (h : ∀ a ∈ l, ∀ d, (f s a).run d = (s, d)) (d : Draft) :
    (l.foldlM f s : Drafting Text).run d = (s, d) := by
  induction l with
  | nil => rfl
  | cons a l ih =>
    rw [List.foldlM_cons, Drafting.run_bind, h a (by simp)]
    exact ih fun a ha => h a (by simp [ha])

/-! ## Patterns of stages -/

/-- The patterns that a stage looks for, as long as it changes nothing else. -/
def Stage.patterns : Stage → List Pattern
  | preamble => declarations.map (·.1)
  | math => mathSpanKinds.map (·.1)
  | header => fullCommand "maketitle" ::
      headerFields.map fun field => command field.1 ++ longArgument "text"
  | inline => inlineRules.map (·.pattern)
  | sections => [headingPattern]
  | verbatim => [verbatimPattern, listingPattern]
  | quotes => [quotePattern]
  | tables => [tablePattern, tabularPattern]
  | lists => [innermostList]
  | paragraphs | blocks => []

/-- None of the patterns of the stages in front of one matches in the text, and it is trimmed. -/
structure Untouched (stage : Stage) (s : Text) : Prop where
  passes : ∀ earlier ∈ Stage.all.takeWhile (· ≠ stage), ∀ p ∈ earlier.patterns, p.Passes s
  trim : s.trim = s

/-! ## Stages that change nothing -/

/-- Without declarations the text is only trimmed. -/
theorem stripDeclarations_eq_trim {s : Text} (h : ∀ e ∈ declarations, e.1.Passes s) :
    stripDeclarations s = s.trim := by
  have hall : ∀ (step : Text → Pattern × Extent → Text) (ds : List (Pattern × Extent)),
      (∀ e ∈ ds, step s e = s) → ds.foldl step s = s := by
    intro step ds hds
    induction ds with
    | nil => rfl
    | cons e ds ih =>
      rw [List.foldl_cons, hds e (by simp)]
      exact ih fun e he => hds e (by simp [he])
  rw [stripDeclarations, hall]
  rintro ⟨p, extent⟩ he
  cases extent with
  | all => exact (h _ he).erase_eq
  | firstOnly => exact (h _ he).eraseFirst_eq

section Stages

variable {s : Text}

theorem liftMath_run (h : ∀ p ∈ Stage.patterns .math, p.Passes s) (d : Draft) :
    (liftMath s).run d = (s, d) := by
  have hall : ∀ kinds : List (Pattern × MathPlace), (∀ kind ∈ kinds, kind.1.Passes s) →
      (kinds.foldlM (fun s (kind : Pattern × MathPlace) =>
        kind.1.replaceM (fun h => liftSpan kind.2 h.matched) s) s : Drafting Text).run d = (s, d) :=
    fun kinds hkinds => foldlM_run_eq (fun kind hkind => (hkinds kind hkind).replaceM_run) d
  exact hall _ fun kind hkind => h _ (List.mem_map_of_mem hkind)

theorem takeField_eq {field : String × String × String}
    (h : (command field.1 ++ longArgument "text").Passes s) : takeField ([], s) field = ([], s) := by
  obtain ⟨name, tag, style⟩ := field
  simp only [takeField, h.find?_eq_none]

theorem extractHeader_run (h : ∀ p ∈ Stage.patterns .header, p.Passes s) (d : Draft) :
    (extractHeader s).run d = (s, d) := by
  have hfields : ∀ field ∈ headerFields, (command field.1 ++ longArgument "text").Passes s :=
    fun field hfield => h _ (List.mem_cons_of_mem _
      (List.mem_map_of_mem (f := fun field => command field.1 ++ longArgument "text") hfield))
  have hnone : headerFields.foldl takeField ([], s) = ([], s) := by
    have hall : ∀ fields : List (String × String × String), (∀ f ∈ fields, f ∈ headerFields) →
        fields.foldl takeField ([], s) = ([], s) := by
      intro fields hsub
      induction fields with
      | nil => rfl
      | cons field fields ih =>
        rw [List.foldl_cons, takeField_eq (hfields field (hsub field (by simp))),
          ih fun f hf => hsub f (by simp [hf])]
    exact hall _ fun _ hf => hf
  rw [extractHeader, hnone]
  exact congrArg (·, d) (h _ List.mem_cons_self).eraseFirst_eq

theorem formatInline_run (h : ∀ p ∈ Stage.patterns .inline, p.Passes s) (d : Draft) :
    (formatInline s).run d = (s, d) :=
  foldlM_run_eq (fun _ hrule d => (h _ (List.mem_map_of_mem hrule)).replaceM_run d) d

theorem formatTables_run (h : ∀ p ∈ Stage.patterns .tables, p.Passes s) (d : Draft) :
    (formatTables s).run d = (s, d) := by
  have hwhole := (h tablePattern (by simp [Stage.patterns])).replaceM_run
    (f := fun h => wholeTable (h.get "body")) d
  rw [formatTables, Drafting.run_bind, hwhole]
  exact (h tabularPattern (by simp [Stage.patterns])).replaceM_run d

theorem formatLists_run (h : innermostList.Passes s) (d : Draft) : (formatLists s).run d = (s, d) := by
  have hone : (innermostList.replaceM formatList s).run d = (s, d) := h.replaceM_run d
  rw [formatLists, formatListsFrom, Drafting.run_bind, hone]
  simp
  rfl

/-- A stage in front of the one for paragraphs changes neither a text in which its patterns do not
match nor the draft. -/
theorem Stage.run_eq {stage : Stage} (hstage : stage ∉ [.paragraphs, .blocks])
    (h : ∀ p ∈ stage.patterns, p.Passes s) (htrim : s.trim = s) (d : Draft) :
    (stage.run s).run d = (s, d) := by
  cases stage with
  | preamble =>
    have hstrip : stripDeclarations s = s := by
      rw [stripDeclarations_eq_trim fun e he => h _ (List.mem_map_of_mem he), htrim]
    exact congrArg (·, d) hstrip
  | math => exact liftMath_run h d
  | header => exact extractHeader_run h d
  | inline => exact formatInline_run h d
  | sections => exact (h headingPattern List.mem_cons_self).replaceM_run d
  | verbatim => exact foldlM_run_eq (fun p hp d => (h p hp).replaceM_run d) d
  | quotes => exact (h quotePattern List.mem_cons_self).replaceM_run d
  | tables => exact formatTables_run h d
  | lists => exact formatLists_run (h innermostList List.mem_cons_self) d
  | paragraphs | blocks => exact absurd (by simp) hstage

/-- A stage, up to the one for paragraphs, is given the text as it is. -/
theorem Untouched.stageInput_eq {stage : Stage} (h : Untouched stage s) (hstage : stage ≠ .blocks) :
    stageInput stage s = (s, .fresh) := by
  have hearlier : ∀ earlier ∈ Stage.all.takeWhile (· ≠ stage),
      earlier ∉ [Stage.paragraphs, .blocks] := by
    cases stage
    case blocks => exact absurd rfl hstage
    all_goals decide
  rw [stageInput]
  exact foldlM_run_eq (fun earlier he d => Stage.run_eq (hearlier earlier he) (h.passes earlier he)
    h.trim d) _

end Stages

/-! ## Refused commands -/

theorem opens_of_mem_declarations {e : Pattern × Extent} (he : e ∈ declarations) :
    e.1.Opens '\\' := by
  have hnamed : ∀ q, ((one (· == '\\') ++ q).Opens '\\') := fun q => (opens_one '\\').append q
  revert e
  simp only [declarations, List.forall_mem_cons, List.not_mem_nil, false_implies, implies_true,
    and_true]
  exact ⟨((opens_command _).append _).append _, ((opens_command _).append _).append _,
    opens_opening _, opens_closing _, (((opens_command _).append _).append _).append _,
    (opens_command _).append _, ((opens_command _).append _).append _,
    ((hnamed _).append _).append _, (opens_command _).append _,
    (((hnamed _).append _).append _).append _,
    (((((hnamed _).append _).append _).append _).append _).append _, (opens_command _).append _,
    (hnamed _).append _⟩

theorem opens_of_mem_mathSpanKinds {kind : Pattern × MathPlace} (h : kind ∈ mathSpanKinds) :
    kind.1.Opens '\\' ∨ kind.1.Opens '$' := by
  revert kind
  simp only [mathSpanKinds, List.forall_mem_cons, List.not_mem_nil, false_implies, implies_true,
    and_true]
  exact ⟨.inr opens_displayDollars, .inl opens_displayBrackets, .inl (opens_mathEnvironment _),
    .inl opens_inlineParens, .inr opens_inlineDollars⟩

theorem opens_of_mem_inlineRules {rule : InlineRule} (h : rule ∈ inlineRules) :
    rule.pattern.Opens '\\' := by
  revert rule
  simp only [inlineRules, InlineRule.wrap, List.forall_mem_cons, List.not_mem_nil, false_implies,
    implies_true, and_true]
  exact ⟨(opens_command _).append _, (opens_command _).append _, (opens_command _).append _,
    (opens_command _).append _, (opens_command _).append _,
    ((opens_command _).append _).append _, (opens_command _).append _, (opens_command _).append _⟩

theorem Stage.opens_of_mem_patterns {stage : Stage} {p : Pattern} (hp : p ∈ stage.patterns) :
    p.Opens '\\' ∨ p.Opens '$' := by
  cases stage with
  | preamble =>
    obtain ⟨e, he, rfl⟩ := List.mem_map.1 hp
    exact .inl (opens_of_mem_declarations he)
  | math =>
    obtain ⟨kind, hkind, rfl⟩ := List.mem_map.1 hp
    exact opens_of_mem_mathSpanKinds hkind
  | header =>
    rcases List.mem_cons.1 hp with rfl | hp
    · exact .inl ((opens_command _).append _)
    · obtain ⟨field, -, rfl⟩ := List.mem_map.1 hp
      exact .inl ((opens_command _).append _)
  | inline =>
    obtain ⟨rule, hrule, rfl⟩ := List.mem_map.1 hp
    exact .inl (opens_of_mem_inlineRules hrule)
  | sections =>
    obtain rfl := List.mem_singleton.1 hp
    exact .inl ((((opens_one '\\').append _).append _).append _)
  | verbatim =>
    rcases List.mem_pair.1 hp with rfl | rfl
    · exact .inl (((opens_opening _).append _).append _)
    · exact .inl ((((opens_opening _).append _).append _).append _)
  | quotes =>
    obtain rfl := List.mem_singleton.1 hp
    exact .inl opens_quotePattern
  | tables =>
    rcases List.mem_pair.1 hp with rfl | rfl
    · exact .inl opens_tablePattern
    · exact .inl opens_tabular
  | lists =>
    obtain rfl := List.mem_singleton.1 hp
    exact .inl opens_innermostList
  | paragraphs | blocks => exact absurd hp List.not_mem_nil

/-- A text whose commands are refused by all these patterns. -/
theorem untouched_of_commands {stage : Stage} {names : List Text} {s : Text}
    (hnames : ((Stage.all.takeWhile (· ≠ stage)).all fun earlier => earlier.patterns.all fun p =>
      names.all fun n => decide (p.Refuses ('\\' :: n))) = true)
    (hcommands : Commands names s []) (hlast : s.getLast? ≠ some '\\') (hdollar : '$' ∉ s)
    (htrim : s.trim = s) : Untouched stage s := by
  refine ⟨fun earlier hearlier p hp => ?_, htrim⟩
  have hrefuses : ∀ n ∈ names, p.Refuses ('\\' :: n) := fun n hn =>
    of_decide_eq_true (List.all_eq_true.1 (List.all_eq_true.1
      (List.all_eq_true.1 hnames earlier hearlier) p hp) n hn)
  rcases Stage.opens_of_mem_patterns hp with hopens | hopens
  · exact ⟨hopens.consumes, hopens.skips_commands hrefuses hcommands hlast⟩
  · exact hopens.passes hdollar

end LatexPreview
