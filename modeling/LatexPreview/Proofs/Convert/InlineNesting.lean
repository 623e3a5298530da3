import Mathlib
import LatexPreview.Convert.Inline
import LatexPreview.Proofs.Pattern.Arguments
import LatexPreview.Proofs.Pattern.Front
import LatexPreview.Proofs.Pattern.Rewriting

/-!
# Commands within the arguments of commands

Lines in which commands that show their argument in an element stand in the arguments of such
commands.  One rule after the other goes over the whole line, and none looks again at what it has
written, so that a command in its own argument is left as it is.

* `InlineLine` is a line of text and commands, `InlineLine.latex` its source, `InlineLine.html` what
  it should be shown as
* `InlineLine.shown` is the line behind some of the rules
* `rewrites_linePart`: what one rule does to a part of the line
* `formatInline_line`: the line behind all of them, which has its commands in their elements if and
  only if no command stands in its own argument
-/

namespace LatexPreview

open Pattern Text

/-! ## Lines -/

/-- The commands that show their argument in an element. -/
inductive Emphasis where
  | bold
  | italic
  | emph
  | code
  | underline
  deriving DecidableEq

namespace Emphasis

/-- The name of the command. -/
def name : Emphasis → String
  | bold => "textbf"
  | italic => "textit"
  | emph => "emph"
  | code => "texttt"
  | underline => "underline"

/-- The name of the element. -/
def tag : Emphasis → String
  | bold => "strong"
  | italic | emph => "em"
  | code => "code"
  | underline => "u"

/-- The style of the element. -/
def style : Emphasis → String
  | bold => Style.bold
  | italic | emph => Style.italic
  | code => Style.code
  | underline => Style.underline

/-- The commands, in the order in which they are formatted. -/
def all : List Emphasis := [bold, italic, emph, code, underline]

/-- The rule that formats the command. -/
def rule (c : Emphasis) : InlineRule := .wrap c.name c.tag c.style

/-- The command with an argument. -/
def latex (c : Emphasis) (w : Text) : Text := '\\' :: c.name.toList ++ braced w

/-- The element with some content. -/
def html (c : Emphasis) (w : Text) : Text := Html.styled c.tag c.style w

/-- The command with an argument, once some commands have been formatted. -/
def shown (passed : List Emphasis) (c : Emphasis) (w : Text) : Text :=
  if c ∈ passed then c.html w else c.latex w

theorem mem_all (c : Emphasis) : c ∈ all := by cases c <;> decide

end Emphasis

/-- Text of a line without backslashes and braces. -/
structure InlineText where
  text : Text
  plain : ∀ c ∈ text, c ∉ ['\\', '{', '}', '\n']

/-- What may stand in the argument of a command. -/
inductive InnerPart where
  | text (s : InlineText)
  | command (c : Emphasis) (s : InlineText)

/-- What may stand in a line. -/
inductive LinePart where
  | text (s : InlineText)
  | command (c : Emphasis) (inside : List InnerPart)

/-- A line of text and commands. -/
abbrev InlineLine := List LinePart

namespace InnerPart

/-- The source of the part. -/
def latex : InnerPart → Text
  | text s => s.text
  | command c s => c.latex s.text

/-- The part with its command in an element. -/
def html : InnerPart → Text
  | text s => s.text
  | command c s => c.html s.text

/-- The part in the argument of a command, once some commands have been formatted.  The command of
the argument itself is never formatted in it. -/
def shown (passed : List Emphasis) (outer : Emphasis) : InnerPart → Text
  | text s => s.text
  | command c s => if c = outer then c.latex s.text else c.shown passed s.text

/-- The part is a command in its own argument. -/
def Repeats (outer : Emphasis) : InnerPart → Prop
  | text _ => False
  | command c _ => c = outer

end InnerPart

namespace LinePart

/-- The source of the part. -/
def latex : LinePart → Text
  | text s => s.text
  | command c inside => c.latex (inside.flatMap InnerPart.latex)

/-- The part with all commands in elements. -/
def html : LinePart → Text
  | text s => s.text
  | command c inside => c.html (inside.flatMap InnerPart.html)

/-- The part, once some commands have been formatted. -/
def shown (passed : List Emphasis) : LinePart → Text
  | text s => s.text
  | command c inside => c.shown passed (inside.flatMap (InnerPart.shown passed c))

/-- A command stands in its own argument. -/
def Repeats : LinePart → Prop
  | text _ => False
  | command c inside => ∃ x ∈ inside, x.Repeats c

end LinePart

namespace InlineLine

/-- The source of the line. -/
def latex (l : InlineLine) : Text := l.flatMap LinePart.latex

/-- The line with all commands in elements. -/
def html (l : InlineLine) : Text := l.flatMap LinePart.html

/-- The line, once some commands have been formatted. -/
def shown (passed : List Emphasis) (l : InlineLine) : Text := l.flatMap (LinePart.shown passed)

/-- Some command stands in its own argument. -/
def Repeats (l : InlineLine) : Prop := ∃ x ∈ l, x.Repeats

end InlineLine

/-! ## Characters -/

namespace Emphasis

/-- The tag in front of the content. -/
def openTag (c : Emphasis) : Text :=
  '<' :: c.tag.toList ++ Html.attr "style" c.style.toList ++ ['>']

/-- The tag behind the content. -/
def closeTag (c : Emphasis) : Text := "</".toList ++ c.tag.toList ++ ['>']

theorem html_eq (c : Emphasis) (w : Text) : c.html w = c.openTag ++ (w ++ c.closeTag) := by
  simp [html, Html.styled, Html.element, openTag, closeTag]

theorem latex_eq (c : Emphasis) (w : Text) :
    c.latex w = ('\\' :: c.name.toList ++ ['{']) ++ (w ++ ['}']) := by
  simp [latex, braced]

theorem plain_tags (c : Emphasis) : ∀ d ∈ c.openTag ++ c.closeTag, d ∉ ['\\', '{', '}', '\n'] := by
  have hall : (c.openTag ++ c.closeTag).all (fun d => decide (d ∉ ['\\', '{', '}', '\n'])) = true := by
    cases c <;> decide +kernel
  exact fun d hd => of_decide_eq_true (List.all_eq_true.1 hall d hd)

theorem slash_not_mem_name (c : Emphasis) : '\\' ∉ c.name.toList := by
  cases c <;> decide

theorem slash_not_mem_html {c : Emphasis} {w : Text} (hw : '\\' ∉ w) : '\\' ∉ c.html w := by
  rw [html_eq]
  intro hmem
  rcases List.mem_append.1 hmem with h | h
  · exact c.plain_tags _ (List.mem_append_left _ h) (by simp)
  · rcases List.mem_append.1 h with h | h
    · exact hw h
    · exact c.plain_tags _ (List.mem_append_right _ h) (by simp)

theorem oneLevel_html (c : Emphasis) {w : Text} (hw : OneLevel w) : OneLevel (c.html w) := by
  have htag : ∀ d ∈ c.openTag ++ c.closeTag, InArgument d := by
    intro d hd hmem
    exact c.plain_tags d hd (List.mem_cons_of_mem _ hmem)
  rw [html_eq]
  refine (oneLevel_of_plain fun d hd => htag d (List.mem_append_left _ hd)).append (hw.append ?_)
  exact oneLevel_of_plain fun d hd => htag d (List.mem_append_right _ hd)

theorem oneLevel_latex (c : Emphasis) {w : Text} (hw : ∀ d ∈ w, InArgument d) :
    OneLevel (c.latex w) := by
  have hname : ∀ d ∈ '\\' :: c.name.toList, InArgument d := by
    cases c <;> simp [name, InArgument]
  have hgroup : OneLevel (braced w) := by
    have h := OneLevel.group hw .nil
    simpa [braced] using h
  exact (oneLevel_of_plain hname).append hgroup

end Emphasis

namespace InlineText

theorem slash_not_mem (s : InlineText) : '\\' ∉ s.text := fun h => s.plain _ h (by simp)

theorem inArgument (s : InlineText) : ∀ c ∈ s.text, InArgument c :=
  fun c hc hmem => s.plain c hc (List.mem_cons_of_mem _ hmem)

end InlineText

/-- The argument of a command has one level of braces, whatever has been formatted. -/
theorem oneLevel_inside (passed : List Emphasis) (outer : Emphasis) (inside : List InnerPart) :
    OneLevel (inside.flatMap (InnerPart.shown passed outer)) := by
  have hpart : ∀ x : InnerPart, OneLevel (x.shown passed outer) := by
    intro x
    cases x with
    | text s => exact oneLevel_of_plain s.inArgument
    | command c s =>
      have hlatex := c.oneLevel_latex s.inArgument
      have hhtml := c.oneLevel_html (oneLevel_of_plain s.inArgument)
      rw [InnerPart.shown, Emphasis.shown]
      split
      · exact hlatex
      · split
        · exact hhtml
        · exact hlatex
  induction inside with
  | nil => exact .nil
  | cons x inside ih => exact (hpart x).append ih

/-! ## Rules that leave a command -/

section Rule

variable {p : Pattern} {f : Hit → Drafting Text}

/-- Behind one another, parts are replaced one after the other. -/
theorem rewrites_flatMap {α : Type} {g h : α → Text} {parts : List α} (hp : p.Consumes)
    (hf : ∀ h gap, f { h with gap } = f h)
    (hparts : ∀ x ∈ parts, ∀ s, p.Rewrites f (g x) s (pure (h x))) (s : Text) :
    p.Rewrites f (parts.flatMap g) s (pure (parts.flatMap h)) := by
  induction parts with
  | nil => exact Skips.rewrites hp hf fun _ => trivial
  | cons x parts ih =>
    have hlater := ih fun y hy => hparts y (List.mem_cons_of_mem _ hy)
    have hboth := (hparts x List.mem_cons_self _).append hlater
    rw [List.flatMap_cons, List.flatMap_cons]
    simpa using hboth

theorem Rewrites.append_pure {x y s x' y' : Text} (hx : p.Rewrites f x (y ++ s) (pure x'))
    (hy : p.Rewrites f y s (pure y')) : p.Rewrites f (x ++ y) s (pure (x' ++ y')) := by
  have hboth := hx.append hy
  simpa using hboth

variable (hopens : p.Opens '\\') (hf : ∀ h gap, f { h with gap } = f h)

include hopens hf

theorem rewrites_slashless {x : Text} (hx : '\\' ∉ x) (s : Text) : p.Rewrites f x s (pure x) :=
  Skips.rewrites hopens.consumes hf fun _ => hopens.skips hx s

/-- In an element, only the content is rewritten. -/
theorem Emphasis.rewrites_html (c : Emphasis) {w w' : Text}
    (hw : ∀ s, p.Rewrites f w s (pure w')) (s : Text) :
    p.Rewrites f (c.html w) s (pure (c.html w')) := by
  have htags : '\\' ∉ c.openTag ∧ '\\' ∉ c.closeTag :=
    ⟨fun h => c.plain_tags _ (List.mem_append_left _ h) (by simp),
      fun h => c.plain_tags _ (List.mem_append_right _ h) (by simp)⟩
  rw [c.html_eq, c.html_eq]
  exact Rewrites.append_pure (rewrites_slashless hopens hf htags.1 _)
    (Rewrites.append_pure (hw _) (rewrites_slashless hopens hf htags.2 _))

/-- In a command of another name, only the argument is rewritten. -/
theorem Emphasis.rewrites_latex {c : Emphasis} (hc : p.Refuses ('\\' :: c.name.toList ++ ['{']))
    {w w' : Text} (hw : ∀ s, p.Rewrites f w s (pure w')) (s : Text) :
    p.Rewrites f (c.latex w) s (pure (c.latex w')) := by
  have hfront : ∀ s b, p.Skips b ('\\' :: c.name.toList ++ ['{']) s := by
    intro s b
    have hname : '\\' ∉ c.name.toList ++ ['{'] := by simp [c.slash_not_mem_name]
    exact ⟨hc.run_eq_none (s := s) rfl some, hopens.skips hname s⟩
  rw [c.latex_eq, c.latex_eq]
  exact Rewrites.append_pure (Skips.rewrites hopens.consumes hf (hfront _))
    (Rewrites.append_pure (hw _) (rewrites_slashless hopens hf (by simp) _))

theorem Emphasis.rewrites_shown {c : Emphasis} (hc : p.Refuses ('\\' :: c.name.toList ++ ['{']))
    (passed : List Emphasis) {w w' : Text} (hw : ∀ s, p.Rewrites f w s (pure w')) (s : Text) :
    p.Rewrites f (c.shown passed w) s (pure (c.shown passed w')) := by
  unfold Emphasis.shown
  split
  · exact c.rewrites_html hopens hf hw s
  · exact Emphasis.rewrites_latex hopens hf hc hw s

/-- A rule for none of the commands leaves the line as it is. -/
theorem rewrites_line_left (hnames : ∀ c : Emphasis, p.Refuses ('\\' :: c.name.toList ++ ['{']))
    (passed : List Emphasis) (l : InlineLine) (s : Text) :
    p.Rewrites f (l.shown passed) s (pure (l.shown passed)) := by
  have hinner : ∀ (outer : Emphasis) (x : InnerPart) s,
      p.Rewrites f (x.shown passed outer) s (pure (x.shown passed outer)) := by
    intro outer x s
    cases x with
    | text t => exact rewrites_slashless hopens hf t.slash_not_mem s
    | command c t =>
      have hplain := rewrites_slashless hopens hf t.slash_not_mem
      simp only [InnerPart.shown]
      split
      · exact Emphasis.rewrites_latex hopens hf (hnames c) hplain s
      · exact Emphasis.rewrites_shown hopens hf (hnames c) passed hplain s
  refine rewrites_flatMap hopens.consumes hf (fun x _ s => ?_) s
  cases x with
  | text t => exact rewrites_slashless hopens hf t.slash_not_mem s
  | command c inside =>
    exact Emphasis.rewrites_shown hopens hf (hnames c) passed
      (rewrites_flatMap hopens.consumes hf fun x _ => hinner c x) s

end Rule

/-! ## The rule for a command -/

namespace Emphasis

theorem opens_rule (c : Emphasis) : c.rule.pattern.Opens '\\' := (opens_command _).append _

theorem format_gap (c : Emphasis) (h : Hit) (gap : Text) :
    c.rule.format { h with gap } = c.rule.format h := rfl

theorem refuses_other {c d : Emphasis} (h : d ≠ c) :
    c.rule.pattern.Refuses ('\\' :: d.name.toList ++ ['{']) := by
  cases c <;> cases d <;> first | exact absurd rfl h | decide

/-- The command with its whole argument is put into an element. -/
theorem rewrites_own (c : Emphasis) {w : Text} (hw : OneLevel w) (s : Text) :
    c.rule.pattern.Rewrites c.rule.format (c.latex w) s (pure (c.html w)) := by
  refine rewrites_hit c.opens_rule.consumes (by simp [latex]) fun b => ?_
  obtain ⟨stop, hstop, hrest, hget⟩ : ∃ stop, c.rule.pattern.at? b (c.latex w ++ s) = some stop ∧
      stop.rest = s ∧ stop.get? "text" = some w := at?_command_argument hw b s
  refine ⟨stop, hstop, hrest, ?_⟩
  have hformat : c.rule.format ⟨[], c.latex w, stop⟩ =
      pure (Html.styled c.tag c.style ((stop.get? "text").getD [])) := rfl
  rw [hformat, hget]
  rfl

end Emphasis

/-- In its own argument, the rule formats nothing, and all other commands have been or will be. -/
theorem shown_inside_own (passed : List Emphasis) (c : Emphasis) (inside : List InnerPart) :
    inside.flatMap (InnerPart.shown (passed ++ [c]) c) = inside.flatMap (InnerPart.shown passed c) := by
  refine List.flatMap_congr fun x _ => ?_
  cases x with
  | text t => rfl
  | command d t =>
    by_cases hd : d = c
    · simp [InnerPart.shown, hd]
    · simp [InnerPart.shown, Emphasis.shown, hd]

section OneRule

variable {passed : List Emphasis} {c : Emphasis} (hc : c ∉ passed)

include hc

/-- In the argument of another command, the rule formats its own command. -/
theorem rewrites_innerPart {outer : Emphasis} (houter : outer ≠ c) (x : InnerPart) (s : Text) :
    c.rule.pattern.Rewrites c.rule.format (x.shown passed outer) s
      (pure (x.shown (passed ++ [c]) outer)) := by
  cases x with
  | text t => exact rewrites_slashless c.opens_rule c.format_gap t.slash_not_mem s
  | command d t =>
    have hplain := rewrites_slashless c.opens_rule c.format_gap t.slash_not_mem
    simp only [InnerPart.shown]
    split
    · rename_i hd
      exact Emphasis.rewrites_latex c.opens_rule c.format_gap
        (Emphasis.refuses_other (hd ▸ houter)) hplain s
    · by_cases hd : d = c
      · subst hd
        have hown := d.rewrites_own (oneLevel_of_plain t.inArgument) s
        simpa [Emphasis.shown, hc] using hown
      · have hother := Emphasis.rewrites_shown c.opens_rule c.format_gap
          (Emphasis.refuses_other hd) passed hplain s
        simpa [Emphasis.shown, hd] using hother

/-- What the rule for a command does to a part of a line. -/
theorem rewrites_linePart (x : LinePart) (s : Text) :
    c.rule.pattern.Rewrites c.rule.format (x.shown passed) s (pure (x.shown (passed ++ [c]))) := by
  cases x with
  | text t => exact rewrites_slashless c.opens_rule c.format_gap t.slash_not_mem s
  | command d inside =>
    by_cases hd : d = c
    · subst hd
      have hown := d.rewrites_own (oneLevel_inside passed d inside) s
      simpa [LinePart.shown, Emphasis.shown, hc, shown_inside_own] using hown
    · have hinside : ∀ s, c.rule.pattern.Rewrites c.rule.format
          (inside.flatMap (InnerPart.shown passed d)) s
          (pure (inside.flatMap (InnerPart.shown (passed ++ [c]) d))) :=
        rewrites_flatMap c.opens_rule.consumes c.format_gap fun x _ => rewrites_innerPart hc hd x
      have hother := Emphasis.rewrites_shown c.opens_rule c.format_gap
        (Emphasis.refuses_other hd) passed hinside s
      simpa [LinePart.shown, Emphasis.shown, hd] using hother

theorem rewrites_line (l : InlineLine) (s : Text) :
    c.rule.pattern.Rewrites c.rule.format (l.shown passed) s (pure (l.shown (passed ++ [c]))) :=
  rewrites_flatMap c.opens_rule.consumes c.format_gap (fun x _ => rewrites_linePart hc x) s

end OneRule

/-! ## All rules -/

/-- The rules behind those for the commands. -/
def laterRules : List InlineRule := inlineRules.drop Emphasis.all.length

theorem inlineRules_eq : inlineRules = Emphasis.all.map Emphasis.rule ++ laterRules := rfl

theorem foldlM_eq_of_left {α β σ : Type} {f : β → α → StateM σ β} {l : List α} {b : β}
    (h : ∀ a ∈ l, f b a = pure b) : l.foldlM f b = pure b := by
  induction l with
  | nil => rfl
  | cons a l ih =>
    rw [List.foldlM_cons, h a (by simp), pure_bind]
    exact ih fun a' ha => h a' (by simp [ha])

/-- Command by command, the rules put the line into elements. -/
theorem foldlM_rules (l : InlineLine) {passed later : List Emphasis} (h : (passed ++ later).Nodup) :
    (later.map Emphasis.rule).foldlM (fun s rule => rule.pattern.replaceM rule.format s)
      (l.shown passed) = (pure (l.shown (passed ++ later)) : Drafting Text) := by
  induction later generalizing passed with
  | nil => simp
  | cons c later ih =>
    have hc : c ∉ passed := fun hmem => (List.nodup_append.1 h).2.2 c hmem c (by simp) rfl
    have hnext : (passed ++ [c] ++ later).Nodup := by simpa using h
    have hstep := Rewrites.replaceM_eq c.opens_rule.consumes (rewrites_line hc l [])
    rw [List.map_cons, List.foldlM_cons, hstep, pure_bind, ih hnext]
    simp

/-- The rules for links and footnotes find nothing in the line. -/
theorem foldlM_laterRules (l : InlineLine) (passed : List Emphasis) :
    laterRules.foldlM (fun s rule => rule.pattern.replaceM rule.format s) (l.shown passed) =
      (pure (l.shown passed) : Drafting Text) := by
  refine foldlM_eq_of_left fun rule hrule => ?_
  have hcases : rule.pattern.Opens '\\' ∧ (∀ h gap, rule.format { h with gap } = rule.format h) ∧
      ∀ c : Emphasis, rule.pattern.Refuses ('\\' :: c.name.toList ++ ['{']) := by
    simp only [laterRules, inlineRules, Emphasis.all, List.length_cons, List.length_nil,
      List.drop_succ_cons, List.drop_zero, List.mem_cons, List.not_mem_nil, or_false] at hrule
    rcases hrule with rfl | rfl | rfl
    · exact ⟨((opens_command _).append _).append _, fun _ _ => rfl, fun c => by cases c <;> decide⟩
    · exact ⟨(opens_command _).append _, fun _ _ => rfl, fun c => by cases c <;> decide⟩
    · exact ⟨(opens_command _).append _, fun _ _ => rfl, fun c => by cases c <;> decide⟩
  obtain ⟨hopens, hf, hnames⟩ := hcases
  exact Rewrites.replaceM_eq hopens.consumes (rewrites_line_left hopens hf hnames passed l [])

theorem formatInline_latex (l : InlineLine) (d : Draft) :
    (formatInline l.latex).run d = (l.shown Emphasis.all, d) := by
  have hlatex : l.latex = l.shown [] := by
    refine List.flatMap_congr fun x _ => ?_
    cases x with
    | text t => rfl
    | command c inside =>
      have hinside : inside.flatMap InnerPart.latex = inside.flatMap (InnerPart.shown [] c) := by
        refine List.flatMap_congr fun x _ => ?_
        cases x with
        | text t => rfl
        | command d t => simp [InnerPart.latex, InnerPart.shown, Emphasis.shown]
      simp [LinePart.latex, LinePart.shown, Emphasis.shown, hinside]
  have hall : ([] ++ Emphasis.all).Nodup := by decide
  rw [formatInline, inlineRules_eq, List.foldlM_append, hlatex, foldlM_rules l hall, pure_bind,
    List.nil_append, foldlM_laterRules]
  rfl

/-! ## Commands in their own arguments -/

theorem Emphasis.shown_all (c : Emphasis) (w : Text) : c.shown all w = c.html w := by
  rw [shown, if_pos c.mem_all]

/-- Without commands in their own arguments, all of them are put into elements. -/
theorem shown_eq_html {l : InlineLine} (h : ¬ l.Repeats) : l.shown Emphasis.all = l.html := by
  refine List.flatMap_congr fun x hx => ?_
  cases x with
  | text t => rfl
  | command c inside =>
    have hinside : inside.flatMap (InnerPart.shown Emphasis.all c) = inside.flatMap InnerPart.html := by
      refine List.flatMap_congr fun y hy => ?_
      cases y with
      | text t => rfl
      | command d t =>
        have hne : d ≠ c := fun heq => h ⟨_, hx, _, hy, heq⟩
        rw [InnerPart.shown, if_neg hne, Emphasis.shown_all]
        rfl
    rw [LinePart.shown, Emphasis.shown_all, hinside]
    rfl

theorem infix_flatMap {α : Type} {f : α → Text} {l : List α} {x : α} (h : x ∈ l) :
    f x <:+: l.flatMap f := by
  obtain ⟨front, rest, rfl⟩ := List.append_of_mem h
  exact ⟨front.flatMap f, rest.flatMap f, by simp⟩

/-- A command in its own argument is left. -/
theorem exists_infix_shown {l : InlineLine} (h : l.Repeats) :
    ∃ c : Emphasis, '\\' :: c.name.toList <:+: l.shown Emphasis.all := by
  obtain ⟨x, hx, hrepeats⟩ := h
  cases x with
  | text t => exact absurd hrepeats id
  | command c inside =>
    obtain ⟨y, hy, hsame⟩ := hrepeats
    cases y with
    | text t => exact absurd hsame id
    | command d t =>
      obtain rfl : d = c := hsame
      have hcommand : '\\' :: d.name.toList <:+: InnerPart.shown Emphasis.all d (.command d t) :=
        ⟨[], braced t.text, by simp [InnerPart.shown, Emphasis.latex]⟩
      have hinside := hcommand.trans (infix_flatMap (f := InnerPart.shown Emphasis.all d) hy)
      have hpart : inside.flatMap (InnerPart.shown Emphasis.all d) <:+:
          LinePart.shown Emphasis.all (.command d inside) := by
        rw [LinePart.shown, Emphasis.shown_all, Emphasis.html_eq]
        exact ⟨d.openTag, d.closeTag, by simp⟩
      exact ⟨d, (hinside.trans hpart).trans (infix_flatMap hx)⟩

theorem slash_not_mem_html (l : InlineLine) : '\\' ∉ l.html := by
  have hinner : ∀ x : InnerPart, '\\' ∉ x.html := by
    intro x
    cases x with
    | text t => exact t.slash_not_mem
    | command c t => exact Emphasis.slash_not_mem_html t.slash_not_mem
  intro hmem
  obtain ⟨x, -, hx⟩ := List.mem_flatMap.1 hmem
  cases x with
  | text t => exact t.slash_not_mem hx
  | command c inside =>
    refine Emphasis.slash_not_mem_html (fun hmem => ?_) hx
    obtain ⟨y, -, hy⟩ := List.mem_flatMap.1 hmem
    exact hinner y hy

/-- A line is shown with each command in its element, and none of the commands is left, if and only
if no command stands in its own argument. -/
theorem formatInline_line (l : InlineLine) (d : Draft) :
    ((formatInline l.latex).run d = (l.html, d) ↔ ¬ l.Repeats) ∧
      ((∀ c : Emphasis, ¬ '\\' :: c.name.toList <:+: ((formatInline l.latex).run d).1) ↔
        ¬ l.Repeats) ∧
      (formatInline l.latex).run d = (l.shown Emphasis.all, d) := by
  rw [formatInline_latex]
  have hleft : l.Repeats → ¬ l.shown Emphasis.all = l.html := by
    intro h heq
    obtain ⟨c, hc⟩ := exists_infix_shown h
    rw [heq] at hc
    exact slash_not_mem_html l (hc.subset List.mem_cons_self)
  refine ⟨⟨fun h hrepeats => hleft hrepeats (Prod.ext_iff.1 h).1, fun h => by rw [shown_eq_html h]⟩,
    ⟨fun h hrepeats => ?_, fun h c hc => ?_⟩, rfl⟩
  · obtain ⟨c, hc⟩ := exists_infix_shown hrepeats
    exact h c hc
  · rw [shown_eq_html h] at hc
    exact slash_not_mem_html l (hc.subset List.mem_cons_self)

/-- The inner one of two commands of one name is left within the element of the outer one. -/
theorem command_in_its_own_argument_is_left :
    ¬ ∀ (l : InlineLine) (d : Draft), (formatInline l.latex).run d = (l.html, d) ∧
      ∀ c : Emphasis, ¬ '\\' :: c.name.toList <:+: ((formatInline l.latex).run d).1 := by
  intro h
  obtain ⟨hrun, -⟩ := h [.command .bold [.text ⟨"a ".toList, by simp⟩,
    .command .bold ⟨"b".toList, by simp⟩, .text ⟨" c".toList, by simp⟩]] .fresh
  exact absurd (congrArg Prod.fst hrun) (by decide +kernel)

/-- Commands of different names may stand within each other in either order. -/
example : ((formatInline "\\emph\x7b\\texttt\x7ba\x7d\x7d\\texttt\x7b\\emph\x7bb\x7d\x7d".toList).run .fresh).1 =
    Emphasis.emph.html (Emphasis.code.html ['a']) ++ Emphasis.code.html (Emphasis.emph.html ['b']) := by
  decide +kernel

end LatexPreview
