import Mathlib
import LatexPreview.Proofs.Source.TagLines

/-!
# The prose of a document

A document of the grammar that is cleared of its math is a document of lines again, and none of
these is math.  A span is a line by itself; an environment reaches from the line of its first tag
to the next line of a closing tag with its name, whatever stands in between.

* `rest_of_find?`: a closing tag ends a line
* `Clears`: a pattern whose matches are rows of lines, with all lines of some kinds among them
* `clears_proseEnvironment`: the environments of math are rows of lines
* `blankMath_withHeading`: no line of math is left
* `mathCommands_blankMath`: nor is a command of math mode
-/

namespace LatexPreview

open Pattern Text

/-! ## Environments -/

/-- The names of the environments whose content is math when prose is looked at. -/
def proseNames : List Text :=
  ["equation", "align", "gather", "math", "displaymath", "multline"].map (·.toList)

theorem spans_proseEnvironment : proseEnvironment.Spans (envFrames proseNames) :=
  spans_mathEnvironment (by simp)

theorem opens_proseEnvironment : proseEnvironment.Opens '\\' := opens_mathEnvironment _

/-- A closing tag ends a line. -/
theorem rest_of_find? {n : Text} (hn : '}' ∉ n) {ls : List Line} {x r : Text}
    (h : find? (endTag n) (rows ls) = some (x, r)) : ∃ later, later <:+ ls ∧ r = rows later := by
  induction ls generalizing x r with
  | nil => exact absurd h (by simp [rows, Text.find?, endTag])
  | cons l ls ih =>
    by_cases hl : ∃ name, l = .tag .closing name ∧ name.text = n
    · obtain ⟨name, rfl, rfl⟩ := hl
      have htext : rows (.tag .closing name :: ls) = ['\n'] ++ (endTag name.text ++ rows ls) := rfl
      rw [htext, find?_append (by simp [Avoids, endTag])] at h
      obtain ⟨-, rfl⟩ := Prod.mk.inj (Option.some.inj h)
      exact ⟨ls, List.suffix_cons _ _, rfl⟩
    · have hline : Avoids (endTag n) l.text (rows ls) :=
        Line.avoids_tag .closing hn (fun name hname heq => hl ⟨name, hname, heq⟩)
          (atLineEnd_rows ls)
      have havoids : Avoids (endTag n) ('\n' :: l.text) (rows ls) :=
        ⟨by simp [endTag], hline⟩
      rw [rows_cons, find?_avoids havoids] at h
      obtain ⟨⟨u, v⟩, hfound, heq⟩ := Option.map_eq_some_iff.1 h
      obtain ⟨-, rfl⟩ := Prod.mk.inj heq
      obtain ⟨later, hlater, hrest⟩ := ih hfound
      exact ⟨later, hlater.trans (List.suffix_cons _ _), hrest⟩

/-- An environment of math ends a line. -/
theorem rest_of_proseEnvironment {name : EnvName} {ls : List Line} {b : Option Char} {stop : Cursor}
    (h : proseEnvironment.at? b ((Line.tag .opening name).text ++ rows ls) = some stop) :
    ∃ later, later <:+ ls ∧ stop.rest = rows later := by
  have hbehind := (spans_proseEnvironment b ((Line.tag .opening name).text ++ rows ls)).symm
  rw [h] at hbehind
  obtain ⟨f, hf, hframe⟩ := List.exists_of_findSome?_eq_some hbehind
  obtain ⟨n, rfl, m, hm, hname⟩ := exists_envFrame hf
  have hplain : ∀ m ∈ proseNames, '}' ∉ m := by simp [proseNames]
  have hn : '}' ∉ n := by
    rcases hname with rfl | rfl
    · exact hplain _ hm
    · simpa using hplain _ hm
  obtain ⟨r, hr, hfind⟩ := Option.bind_eq_some_iff.1 hframe
  obtain ⟨⟨x, rest⟩, hx, hrest⟩ := Option.map_eq_some_iff.1 hfind
  obtain ⟨-, rfl⟩ := tag_eq .opening hn (dropFront?_eq_some_iff.1 hr)
  obtain ⟨later, hlater, hrows⟩ := rest_of_find? hn hx
  exact ⟨later, hlater, hrest.symm.trans hrows⟩

/-- Where no environment of math begins, the line is gone over. -/
theorem skips_proseEnvironment {l : Line} {s : Text} (hs : AtLineEnd s)
    (h : ∀ name, l = .tag .opening name → proseEnvironment.at? (some '\n') (l.text ++ s) = none) :
    proseEnvironment.Skips (some '\n') l.text s := by
  by_cases htag : ∃ name, l = .tag .opening name
  · obtain ⟨name, rfl⟩ := htag
    exact ⟨h name rfl, opens_proseEnvironment.skips (TagSide.not_mem .opening name) s⟩
  · refine spans_proseEnvironment.skips (fun f hf => ?_) _
    obtain ⟨n, rfl, -⟩ := exists_envFrame hf
    exact (Line.avoids_word .opening (fun name hl => htag ⟨name, hl⟩) hs).mono (braced n)

/-! ## Clearing -/

/-- The line that a span gives way to. -/
def Line.blank : Line := proseLine [' '] (by simp [Ordinary])

/-- Replaced by blanks, the matches of the pattern take lines of some kinds away, and if spans of
other kinds were there before, no others come. -/
def Clears (p : Pattern) (before after : List SpanKind) : Prop :=
  ∀ ls, (∀ l ∈ ls, l.isMath before = false) →
    ∃ ms, p.replace (fun _ => [' ']) (withHeading ls) = withHeading ms ∧
      ∀ m ∈ ms, m.isMath after = false

theorem Line.isMath_cons (l : Line) (k : SpanKind) (kinds : List SpanKind) :
    l.isMath (k :: kinds) = (l.isMath [k] || l.isMath kinds) := by
  cases l with
  | leaf l => cases l <;> simp [isMath]
  | heading | openBrace | closeBrace | tag => rfl

theorem LineWise.clears {p : Pattern} {kind : Line → Prop} {k : SpanKind}
    (hp : LineWise p kind (Line.isMath [k])) (before : List SpanKind)
    (hkind : ∀ l, l.isMath before = false → kind l) :
    Clears p before (k :: before) := by
  intro ls hls
  refine ⟨_, hp.replace_withHeading (fun l hl => hkind l (hls l hl)) Line.blank, fun m hm => ?_⟩
  obtain ⟨l, hl, rfl⟩ := List.mem_map.1 hm
  split
  · rfl
  · rename_i hother
    rw [Line.isMath_cons, hls l hl, Bool.or_false]
    exact Bool.eq_false_iff.2 hother

/-- Environments of math are cleared row by row. -/
theorem replace_rows_proseEnvironment (ls : List Line) (b : Option Char) :
    ∃ ms, (proseEnvironment.cutFrom b (rows ls)).replace (fun _ => [' ']) = rows ms ∧
      ∀ m ∈ ms, m ∈ ls ∨ m = Line.blank := by
  have hend := opens_proseEnvironment.skipsLineEnd (by decide)
  have hconsumes := opens_proseEnvironment.consumes
  induction hn : ls.length using Nat.strong_induction_on generalizing ls b with
  | _ n ih =>
    cases ls with
    | nil => exact ⟨[], by rw [cutFrom_rows_nil hconsumes]; rfl, by simp⟩
    | cons l ls =>
      rw [rows_cons]
      by_cases hopen : ∃ name stop, l = .tag .opening name ∧
          proseEnvironment.at? (some '\n') (l.text ++ rows ls) = some stop
      · -- The environment gives way to a line, and the search goes on at a later line.
        obtain ⟨name, stop, rfl, hstop⟩ := hopen
        obtain ⟨later, hlater, hrest⟩ := rest_of_proseEnvironment hstop
        obtain ⟨w, hw⟩ := (matches_of_at? hstop).exists_append
        simp only [hrest] at hw
        have hless : later.length < n := by
          have hle := hlater.length_le
          rw [List.length_cons] at hn
          omega
        obtain ⟨ms, hms, hsub⟩ := ih later.length hless later (w.getLast?.or (some '\n')) rfl
        refine ⟨Line.blank :: ms, ?_, fun m hm => ?_⟩
        · rw [List.cons_append, hw, ← List.cons_append,
            cutFrom_line_hit hconsumes hend (hw ▸ hstop) hrest, rows_cons, ← hms]
          simp [Cut.replace, Line.blank, proseLine, Line.text, Leaf.text]
        · rcases List.mem_cons.1 hm with rfl | hm
          · exact .inr rfl
          · exact (hsub m hm).imp_left fun h => List.mem_cons_of_mem _ (hlater.subset h)
      · have hskips : proseEnvironment.Skips (some '\n') l.text (rows ls) :=
          skips_proseEnvironment (atLineEnd_rows ls) fun name hl =>
            Option.eq_none_iff_forall_ne_some.2 fun stop hstop => hopen ⟨name, stop, hl, hstop⟩
        obtain ⟨ms, hms, hsub⟩ := ih ls.length (by rw [List.length_cons] at hn; omega) ls l.last rfl
        refine ⟨l :: ms, ?_, fun m hm => ?_⟩
        · rw [cutFrom_line_skips hconsumes hend hskips, replace_prepend, hms]
          rfl
        · rcases List.mem_cons.1 hm with rfl | hm
          · exact .inl (by simp)
          · exact (hsub m hm).imp_left fun h => by simp [h]

theorem clears_proseEnvironment (kinds : List SpanKind) : Clears proseEnvironment kinds kinds := by
  intro ls hls
  have hheading : proseEnvironment.Skips none Line.heading.text (rows ls) := by
    refine spans_proseEnvironment.skips (fun f hf => ?_) _
    obtain ⟨n, rfl, -⟩ := exists_envFrame hf
    exact (Line.avoids_word .opening (fun _ => by simp) (atLineEnd_rows ls)).mono (braced n)
  obtain ⟨ms, hms, hsub⟩ := replace_rows_proseEnvironment ls Line.heading.last
  refine ⟨ms, ?_, fun m hm => ?_⟩
  · rw [Pattern.replace, cut_withHeading opens_proseEnvironment.consumes hheading, replace_prepend, hms]
    rfl
  · rcases hsub m hm with hm | rfl
    · exact hls m hm
    · rfl

/-- A document that is cleared of its math has no line of math. -/
theorem blankMath_withHeading (ls : List Line) :
    ∃ ms, blankMath (withHeading ls) = withHeading ms ∧
      ∀ m ∈ ms, m.isMath [.dollars, .parens, .brackets, .displayDollars] = false := by
  obtain ⟨ls₁, h₁, hclear₁⟩ := lineWise_displayDollars.clears [] (fun _ _ => trivial) ls
    fun l _ => by cases l with
      | leaf l => cases l <;> rfl
      | heading | openBrace | closeBrace | tag => rfl
  obtain ⟨ls₂, h₂, hclear₂⟩ := clears_proseEnvironment _ ls₁ hclear₁
  obtain ⟨ls₃, h₃, hclear₃⟩ := lineWise_displayBrackets.clears _ (fun _ _ => trivial) ls₂ hclear₂
  obtain ⟨ls₄, h₄, hclear₄⟩ := lineWise_inlineParens.clears _ (fun _ _ => trivial) ls₃ hclear₃
  obtain ⟨ls₅, h₅, hclear₅⟩ := lineWise_proseDollars.clears _
    (fun l hl => Line.isMath_mono hl (by simp)) ls₄ hclear₄
  refine ⟨ls₅, ?_, hclear₅⟩
  simp only [blankMath, proseSpans, List.foldl]
  rw [h₁, h₂, h₃, h₄, h₅]

/-! ## Commands of math mode -/

/-- Without lines of math there are no commands of math mode. -/
theorem skips_mathCommand {l : Line}
    (h : l.isMath [.dollars, .parens, .brackets, .displayDollars] = false) {s : Text} (hs : AtLineEnd s)
    (b : Option Char) : mathCommand.Skips b l.text s := by
  refine leads_mathCommand.skips fun w hw => ?_
  obtain ⟨v, hv, rfl⟩ := List.mem_map.1 hw
  obtain ⟨d, v', heq, hd⟩ := exists_cons_of_mem_mathCommandWords hv
  refine (l.commands hs).avoids (by simp [heq]) fun n hn => l.clash ⟨d, v', heq, hd⟩ ?_ ?_ ?_ hn
  · exact (clash_word .opening hv).2
  · rintro side name rfl
    exact (clash_word side hv).1.symm
  · rintro kind f hf rfl
    cases kind <;> exact absurd h (by simp [Line.isMath])

/-- In the prose of a document there are no commands of math mode. -/
theorem mathCommands_blankMath (ls : List Line) : mathCommands (blankMath (withHeading ls)) = [] := by
  obtain ⟨ms, hms, hclear⟩ := blankMath_withHeading ls
  have hopens : mathCommand.Opens '\\' := ((opens_one '\\').append _).append _
  have hskips : mathCommand.Skips none (withHeading ms) [] := by
    refine skips_withHeading (hopens.skipsLineEnd (by decide)) fun l hl b s hs => ?_
    rcases List.mem_cons.1 hl with rfl | hl
    · exact skips_mathCommand rfl hs b
    · exact skips_mathCommand (hclear l hl) hs b
  have hcut : mathCommand.cut (withHeading ms) = ⟨[], withHeading ms⟩ :=
    cutFrom_eq_tail hopens.consumes hskips
  rw [hms, mathCommands, hcut]
  rfl

end LatexPreview
