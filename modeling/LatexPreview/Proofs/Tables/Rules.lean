import Mathlib
import LatexPreview.Convert.Tables
import LatexPreview.Proofs.Pattern.Arguments
import LatexPreview.Proofs.Pattern.Border
import LatexPreview.Proofs.Pattern.Environment
import LatexPreview.Proofs.Pattern.Front
import LatexPreview.Proofs.Text.Words

/-!
# Lines between rows

The commands that draw lines are taken out of the source of a table before it is divided into rows.
They are looked for at every backslash, also at the second one of a row break: what stands directly
behind the break is then read as the name of a command.

* `RowRule` is a command that draws a line
* `RuleFirst`: such a command stands at the front of a text
* `erase_rule`, `erase_char`: a text without its lines, from left to right
-/

namespace LatexPreview

open Pattern Text

/-- A command that draws a line between rows. -/
inductive RowRule where
  | hline
  /-- A line below some columns. -/
  | cline (columns : Text) (closed : '}' ∉ columns) (inLine : '\n' ∉ columns)
  | toprule
  | midrule
  | bottomrule

/-- The name of the command. -/
def RowRule.name : RowRule → String
  | hline => "hline"
  | cline _ _ _ => "cline"
  | toprule => "toprule"
  | midrule => "midrule"
  | bottomrule => "bottomrule"

/-- The columns that the line is drawn below. -/
def RowRule.columns : RowRule → Text
  | cline columns _ _ => braced columns
  | _ => []

/-- The command. -/
def RowRule.text (r : RowRule) : Text := '\\' :: r.name.toList ++ r.columns

/-- A command that draws a line stands at the front of the text. -/
def RuleFirst (s : Text) : Prop := ∃ r : RowRule, r.text <+: s

theorem RowRule.exists_text (r : RowRule) :
    ∃ c ∈ ['h', 'c', 't', 'm', 'b'], ∃ w, r.text = '\\' :: c :: w := by
  have hname : ∃ c ∈ ['h', 'c', 't', 'm', 'b'], ∃ w, r.name.toList = c :: w := by
    cases r with
    | hline => exact ⟨'h', by simp, "line".toList, rfl⟩
    | cline _ _ _ => exact ⟨'c', by simp, "line".toList, show "cline".toList = _ from rfl⟩
    | toprule => exact ⟨'t', by simp, "oprule".toList, rfl⟩
    | midrule => exact ⟨'m', by simp, "idrule".toList, rfl⟩
    | bottomrule => exact ⟨'b', by simp, "ottomrule".toList, rfl⟩
  obtain ⟨c, hc, w, hw⟩ := hname
  exact ⟨c, hc, w ++ r.columns, by rw [text, hw]; rfl⟩

/-- A line starts at a backslash with a letter behind it. -/
theorem not_ruleFirst_of_ne {c : Char} (hc : c ≠ '\\') (s : Text) : ¬ RuleFirst (c :: s) := by
  rintro ⟨r, hr⟩
  obtain ⟨d, -, w, hw⟩ := r.exists_text
  rw [hw] at hr
  exact hc (List.cons_prefix_cons.1 hr).1.symm

theorem not_ruleFirst_of_not_mem {c : Char} (hc : c ∉ ['h', 'c', 't', 'm', 'b']) (s : Text) :
    ¬ RuleFirst ('\\' :: c :: s) := by
  rintro ⟨r, hr⟩
  obtain ⟨d, hd, w, hw⟩ := r.exists_text
  rw [hw] at hr
  have hlater := (List.cons_prefix_cons.1 hr).2
  exact hc ((List.cons_prefix_cons.1 hlater).1 ▸ hd)

theorem not_ruleFirst_slash : ¬ RuleFirst ['\\'] := by
  rintro ⟨r, hr⟩
  obtain ⟨d, -, w, hw⟩ := r.exists_text
  rw [hw] at hr
  exact absurd hr.length_le (by simp)

/-! ## The patterns -/

theorem opens_tablePattern : tablePattern.Opens '\\' :=
  (((opens_opening "table").append _).append _).append _

theorem opens_rowBreak : (word "\\\\").Opens '\\' := opens_lit '\\' ['\\']

theorem opens_rowSpacing : rowSpacing.Opens '[' := ((opens_one '[').append _).append _

theorem opens_cellSeparator : cellSeparator.Opens '&' := (opens_one '&').behindEdge _

theorem opens_rulePattern : rulePattern.Opens '\\' :=
  (opens_command "hline").alt (((opens_command "cline").append _).alt
    ((opens_command "toprule").alt ((opens_command "midrule").alt (opens_command "bottomrule"))))

theorem unaware_rule : rulePattern.Unaware :=
  (unaware_lit _ _).alt (((unaware_lit _ _).append _).alt
    ((unaware_lit _ _).alt ((unaware_lit _ _).alt (unaware_lit _ _))))

/-- What a match of the pattern starts with is such a command. -/
theorem ruleFirst_of_matches {c t : Cursor} (h : rulePattern.Matches c t) : RuleFirst c.rest := by
  have hplain : ∀ {r : RowRule}, (command r.name).Matches c t → r.columns = [] → RuleFirst c.rest := by
    intro r h hcolumns
    exact ⟨r, t.rest, by rw [RowRule.text, hcolumns, List.append_nil]; exact (matches_lit h).symm⟩
  rcases h with h | ⟨m, hname, hcolumns⟩ | h | h | h
  · exact hplain (r := .hline) h rfl
  · obtain ⟨w, hw, hline⟩ := matches_looseArgument hcolumns
    obtain ⟨columns, r, hclose, hfree⟩ := List.eq_append_cons_of_mem
      (show '}' ∈ w ++ '}' :: t.rest by simp)
    have hcut : columns <+: w :=
      prefix_of_not_mem (s := t.rest) hfree (by rw [hclose]; exact List.prefix_append _ _)
    refine ⟨.cline columns hfree fun hmem => hline (hcut.subset hmem), r, ?_⟩
    rw [show c.rest = _ from matches_lit hname, hw, hclose]
    simp [RowRule.text, RowRule.name, RowRule.columns, braced]
  · exact hplain (r := .toprule) h rfl
  · exact hplain (r := .midrule) h rfl
  · exact hplain (r := .bottomrule) h rfl

/-- A command without columns is found by its own name. -/
theorem RowRule.exists_run (r : RowRule) (hcolumns : r.columns = []) (b : Option Char) (s : Text) :
    ∃ stop, (command r.name).run ⟨b, r.text ++ s, []⟩ some = some stop ∧ stop.rest = s := by
  rw [text, hcolumns, List.append_nil]
  exact ⟨_, run_lit _ _ _ _ _, rfl⟩

/-- Columns end at the first closing brace. -/
theorem exists_run_cline {columns : Text} (hclosed : '}' ∉ columns) (hline : '\n' ∉ columns)
    (b : Option Char) (s : Text) :
    ∃ stop, (command "cline" ++ looseArgument).run
      ⟨b, (RowRule.cline columns hclosed hline).text ++ s, []⟩ some = some stop ∧ stop.rest = s := by
  have htext : (RowRule.cline columns hclosed hline).text ++ s =
      '\\' :: "cline".toList ++ (braced columns ++ s) := by
    simp [RowRule.text, RowRule.name, RowRule.columns]
  have hname : (command "cline" ++ looseArgument).run
      ⟨b, '\\' :: "cline".toList ++ (braced columns ++ s), []⟩ some =
        looseArgument.run ⟨('\\' :: "cline".toList).getLast?.or b, braced columns ++ s, []⟩ some :=
    run_lit _ _ _ _ _
  obtain ⟨t, ht, -⟩ := exists_matches_looseArgument
    (s := ⟨('\\' :: "cline".toList).getLast?.or b, braced columns ++ s, []⟩) rfl hline
  obtain ⟨stop, hstop⟩ := Option.isSome_iff_exists.1
    (run_complete (k := some) steady_looseArgument ht rfl)
  refine ⟨stop, by rw [htext, hname, hstop], ?_⟩
  obtain ⟨w, hw, hfree⟩ := run_looseArgument hstop
  have hsame : columns ++ '}' :: s = w ++ '}' :: stop.rest := by simpa [braced] using hw
  exact (eq_of_append_cons_eq hclosed hfree hsame).2.symm

/-- A command for a line is found, and it alone. -/
theorem at?_rule (r : RowRule) (b : Option Char) (s : Text) :
    ∃ stop, rulePattern.at? b (r.text ++ s) = some stop ∧ stop.rest = s := by
  -- The names differ in their first letters, so that no other name is found in front of the right one.
  have hother : ∀ {p : Pattern} {c : Char} {w : Text}, p.Refuses ['\\', c] → r.text = '\\' :: c :: w →
      p.run ⟨b, r.text ++ s, []⟩ some = none := by
    intro p c w hp hr
    exact hp.run_eq_none (s := w ++ s) (by rw [hr]; rfl) some
  simp only [at?, rulePattern, anyOf, run_alt]
  cases r with
  | hline =>
    obtain ⟨stop, hstop, hrest⟩ := RowRule.hline.exists_run rfl b s
    rw [show command "hline" = command RowRule.hline.name from rfl, hstop]
    exact ⟨stop, rfl, hrest⟩
  | cline columns hclosed hline =>
    obtain ⟨stop, hstop, hrest⟩ := exists_run_cline hclosed hline b s
    have htext : (RowRule.cline columns hclosed hline).text =
        '\\' :: 'c' :: ("line".toList ++ braced columns) := by
      simp [RowRule.text, RowRule.name, RowRule.columns]
    rw [hother (p := command "hline") (by decide) htext, hstop]
    exact ⟨stop, rfl, hrest⟩
  | toprule =>
    obtain ⟨stop, hstop, hrest⟩ := RowRule.toprule.exists_run rfl b s
    have htext : RowRule.toprule.text = '\\' :: 't' :: "oprule".toList := rfl
    rw [hother (p := command "hline") (by decide) htext,
      hother (p := command "cline" ++ looseArgument) (by decide) htext,
      show command "toprule" = command RowRule.toprule.name from rfl, hstop]
    exact ⟨stop, rfl, hrest⟩
  | midrule =>
    obtain ⟨stop, hstop, hrest⟩ := RowRule.midrule.exists_run rfl b s
    have htext : RowRule.midrule.text = '\\' :: 'm' :: "idrule".toList := rfl
    rw [hother (p := command "hline") (by decide) htext,
      hother (p := command "cline" ++ looseArgument) (by decide) htext,
      hother (p := command "toprule") (by decide) htext,
      show command "midrule" = command RowRule.midrule.name from rfl, hstop]
    exact ⟨stop, rfl, hrest⟩
  | bottomrule =>
    obtain ⟨stop, hstop, hrest⟩ := RowRule.bottomrule.exists_run rfl b s
    have htext : RowRule.bottomrule.text = '\\' :: 'b' :: "ottomrule".toList := rfl
    rw [hother (p := command "hline") (by decide) htext,
      hother (p := command "cline" ++ looseArgument) (by decide) htext,
      hother (p := command "toprule") (by decide) htext,
      hother (p := command "midrule") (by decide) htext,
      show command "bottomrule" = command RowRule.bottomrule.name from rfl, hstop]
    exact ⟨stop, rfl, hrest⟩

/-! ## A text without its lines -/

theorem erase_rule (r : RowRule) (s : Text) :
    rulePattern.erase (r.text ++ s) = rulePattern.erase s := by
  have hless := opens_rulePattern.consumes
  obtain ⟨stop, hstop, hrest⟩ := at?_rule r none s
  have hhit := rewritten_hit hless (fun _ => []) (by simp [RowRule.text]) hstop hrest
  rw [List.nil_append, unaware_rule.rewritten_eq _ (r.text.getLast?.or none) none] at hhit
  exact hhit

theorem erase_char {c : Char} {s : Text} (h : ¬ RuleFirst (c :: s)) :
    rulePattern.erase (c :: s) = c :: rulePattern.erase s := by
  have hless := opens_rulePattern.consumes
  have hnone : rulePattern.at? none (c :: s) = none :=
    Option.eq_none_iff_forall_ne_some.2 fun stop hstop =>
      h (ruleFirst_of_matches (matches_of_at? hstop))
  have hgap := rewritten_gap hless (fun _ => []) hnone
  rw [unaware_rule.rewritten_eq _ (some c) none] at hgap
  exact hgap

theorem erase_nil : rulePattern.erase [] = [] := rewritten_nil opens_rulePattern.consumes fun _ => []

end LatexPreview
