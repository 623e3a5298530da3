import Mathlib
import LatexPreview.Cover.Inject
import LatexPreview.Proofs.Placeholder.Token
import LatexPreview.Proofs.Source.Grammar
import LatexPreview.Proofs.Text.Words

/-!
# The source of a cover page

A cover page with texts in its fields can be written, and its source is a tree: escaped text,
commands, groups and environments, each of which is closed where it ends.  So whatever is to be
said of the source, there is one case to look at for each kind of node.

* `Markup` is such a tree, `IsMarkup` tells that a text is one written out
* `isMarkup_escapeLatex`: escaped text is markup, whatever it says
* `CoverPage.Textual`: the fields of the page hold texts, or lists of texts
* `coverBody_eq`: the source of such a page is markup
* `Markup.commands`: the names behind the backslashes in markup
-/

namespace LatexPreview

open Pattern Text

/-! ## Trees -/

/-- A word of letters, digits and full stops, such as the name of a package or a length. -/
abbrev Measure := {w : Text // ∀ c ∈ w, c.isAlphanum = true ∨ c = '.'}

/-- A declaration in a line of its own. -/
inductive PageSetting where
  | package (name : Measure)
  | space (size : Measure)
  | stretch (factor : Measure)
  | newPage

/-- The source of a declaration. -/
def PageSetting.text : PageSetting → Text
  | package name => applied "\\usepackage" name.1
  | space size => applied "\\vspace" size.1
  | stretch factor => "\\renewcommand".toList ++ braced "\\arraystretch".toList ++ braced factor.1
  | newPage => "\\newpage".toList

/-- The characters that stand for themselves behind a backslash. -/
def escapables : List Char := ['&', '%', '$', '#', '_', '{', '}']

/-- The commands within a cover page that declare nothing. -/
def markupCommands : List Text :=
  ["textbackslash", "textasciitilde", "textasciicircum", "textbf", "Large", "large", "hline"].map
    (·.toList)

/-- The environments in a cover page. -/
def markupEnvironments : List Text := ["center", "tabular"].map (·.toList)

/-- What may stand behind the end of a row, which may ask for space. -/
def rowEnds (spaced : Bool) : List Char := [' ', '\n'] ++ if spaced then ['['] else []

/-- Source that closes what it opens, in which rows may ask for space or not. -/
inductive Markup (spaced : Bool) where
  | nil
  | char (c : Char) (plain : c ∉ ['\\', '$', '{', '}']) (more : Markup spaced)
  | symbol (c : Char) (escapable : c ∈ escapables) (more : Markup spaced)
  | command (name : Text) (known : name ∈ markupCommands) (more : Markup spaced)
  | rowEnd (c : Char) (behind : c ∈ rowEnds spaced) (more : Markup spaced)
  | group (inner more : Markup spaced)
  | env (name : Text) (known : name ∈ markupEnvironments) (inner more : Markup spaced)
  | setting (s : PageSetting) (more : Markup spaced)

namespace Markup

variable {spaced : Bool}

/-- The source. -/
def text : Markup spaced → Text
  | nil => []
  | char c _ more => c :: more.text
  | symbol c _ more => '\\' :: c :: more.text
  | command name _ more => '\\' :: name ++ more.text
  | rowEnd c _ more => '\\' :: '\\' :: c :: more.text
  | group inner more => braced inner.text ++ more.text
  | env name _ inner more => beginTag name ++ inner.text ++ endTag name ++ more.text
  | setting s more => s.text ++ '\n' :: more.text

/-- Source behind other source. -/
def append : Markup spaced → Markup spaced → Markup spaced
  | nil, m => m
  | char c plain more, m => char c plain (more.append m)
  | symbol c escapable more, m => symbol c escapable (more.append m)
  | command name known more, m => command name known (more.append m)
  | rowEnd c behind more, m => rowEnd c behind (more.append m)
  | group inner more, m => group inner (more.append m)
  | env name known inner more, m => env name known inner (more.append m)
  | setting s more, m => setting s (more.append m)

theorem text_append (l m : Markup spaced) : (l.append m).text = l.text ++ m.text := by
  induction l with
  | nil => rfl
  | char c _ more ih | symbol c _ more ih | command name _ more ih | rowEnd c _ more ih =>
    simp [append, text, ih]
  | group inner more _ ih | env name _ inner more _ ih => simp [append, text, ih]
  | setting s more ih => simp [append, text, ih]

end Markup

/-! ## Texts that are markup -/

/-- The text is the source of a tree. -/
def IsMarkup (spaced : Bool) (t : Text) : Prop := ∃ m : Markup spaced, m.text = t

namespace IsMarkup

variable {spaced : Bool} {t u : Text}

theorem nil : IsMarkup spaced [] := ⟨.nil, rfl⟩

theorem append (ht : IsMarkup spaced t) (hu : IsMarkup spaced u) : IsMarkup spaced (t ++ u) := by
  obtain ⟨l, rfl⟩ := ht
  obtain ⟨m, rfl⟩ := hu
  exact ⟨l.append m, l.text_append m⟩

theorem plain (h : ∀ c ∈ t, c ∉ ['\\', '$', '{', '}']) : IsMarkup spaced t := by
  induction t with
  | nil => exact nil
  | cons c t ih =>
    obtain ⟨m, hm⟩ := ih fun d hd => h d (by simp [hd])
    exact ⟨.char c (h c (by simp)) m, congrArg (c :: ·) hm⟩

theorem symbol {c : Char} (h : c ∈ escapables) : IsMarkup spaced ['\\', c] := ⟨.symbol c h .nil, rfl⟩

theorem command {name : Text} (h : name ∈ markupCommands) : IsMarkup spaced ('\\' :: name) :=
  ⟨.command name h .nil, by simp [Markup.text]⟩

theorem rowEnd {c : Char} (h : c ∈ rowEnds spaced) : IsMarkup spaced ['\\', '\\', c] :=
  ⟨.rowEnd c h .nil, rfl⟩

theorem braced (h : IsMarkup spaced t) : IsMarkup spaced (braced t) := by
  obtain ⟨m, rfl⟩ := h
  exact ⟨.group m .nil, by simp [Markup.text]⟩

theorem env {name : Text} (hname : name ∈ markupEnvironments) (h : IsMarkup spaced t) :
    IsMarkup spaced (beginTag name ++ t ++ endTag name) := by
  obtain ⟨m, rfl⟩ := h
  exact ⟨.env name hname m .nil, by simp [Markup.text]⟩

theorem setting (s : PageSetting) : IsMarkup spaced (s.text ++ ['\n']) :=
  ⟨.setting s .nil, by simp [Markup.text]⟩

/-- Lines of markup, joined to a text. -/
theorem join {lines : List Text} (h : ∀ l ∈ lines, IsMarkup spaced l) :
    IsMarkup spaced (Text.join ['\n'] lines) := by
  induction lines with
  | nil => exact nil
  | cons l lines ih =>
    have hfirst := h l (by simp)
    have hlater := ih fun k hk => h k (by simp [hk])
    cases lines with
    | nil => exact hfirst
    | cons k lines => exact (hfirst.append (plain (by simp))).append hlater

end IsMarkup

/-! ## Escaped text -/

theorem isMarkup_escapeLatexChar {spaced : Bool} (c : Char) :
    IsMarkup spaced (escapeLatexChar c) := by
  have hword : ∀ {name : Text}, name ∈ markupCommands →
      IsMarkup spaced ('\\' :: name ++ "\x7b\x7d".toList) :=
    fun hname => (IsMarkup.command hname).append IsMarkup.nil.braced
  unfold escapeLatexChar
  cases hlookup : latexEscapes.lookup c with
  | none =>
    have hplain : ∀ d ∈ [c], d ∉ ['\\', '$', '{', '}'] := by
      rintro d hd hmem
      obtain rfl := List.mem_singleton.1 hd
      rw [List.lookup_eq_none_iff] at hlookup
      simp only [List.mem_cons, List.not_mem_nil, or_false] at hmem
      rcases hmem with rfl | rfl | rfl | rfl <;> simp [latexEscapes] at hlookup
    exact IsMarkup.plain hplain
  | some t =>
    obtain ⟨front, rest, htable, -⟩ := List.lookup_eq_some_iff.1 hlookup
    have hmem : (c, t) ∈ latexEscapes := by simp [htable]
    simp only [latexEscapes, List.mem_cons, List.not_mem_nil, or_false, Prod.mk.injEq] at hmem
    rcases hmem with ⟨-, rfl⟩ | ⟨-, rfl⟩ | ⟨-, rfl⟩ | ⟨-, rfl⟩ | ⟨-, rfl⟩ | ⟨-, rfl⟩ | ⟨-, rfl⟩ |
      ⟨-, rfl⟩ | ⟨-, rfl⟩ | ⟨-, rfl⟩
    case inl => exact @hword "textbackslash".toList (by decide)
    case inr.inr.inr.inr.inr.inr.inr.inr.inl =>
      exact @hword "textasciitilde".toList (by decide)
    case inr.inr.inr.inr.inr.inr.inr.inr.inr =>
      exact @hword "textasciicircum".toList (by decide)
    all_goals exact IsMarkup.symbol (by decide)

theorem isMarkup_escapeLatex {spaced : Bool} (s : Text) : IsMarkup spaced (escapeLatex s) := by
  induction s with
  | nil => exact .nil
  | cons c s ih => exact (isMarkup_escapeLatexChar c).append ih

/-! ## Texts in fields -/

/-- The fields of the page hold texts, those for questions and for the institution lists of texts.
Whether the page is switched on may be told by any value. -/
structure CoverPage.Textual (page : CoverPage) : Prop where
  texts : ∀ f ∉ [CoverField.enabled, .questions, .institution], ∃ s, page f = .str s
  lists : ∀ f ∈ [CoverField.questions, .institution], ∃ items : List Text,
    page f = .arr (items.map .str)

theorem textual_plain : CoverPage.plain.Textual where
  texts := by
    intro f hf
    cases f <;> first | exact ⟨_, rfl⟩ | exact absurd hf (by decide)
  lists := by
    intro f hf
    simp only [List.mem_cons, List.not_mem_nil, or_false] at hf
    rcases hf with rfl | rfl <;> exact ⟨[], rfl⟩

/-- The page with a text in a field. -/
def CoverPage.write (page : CoverPage) (f : CoverField) (s : Text) : CoverPage :=
  Function.update page f (.str s)

theorem CoverPage.Textual.write {page : CoverPage} (h : page.Textual) {f : CoverField}
    (hf : f ∉ [CoverField.questions, .institution]) (s : Text) : (page.write f s).Textual where
  texts := by
    intro g hg
    by_cases hgf : g = f
    · exact ⟨s, by rw [hgf, CoverPage.write, Function.update_self]⟩
    · rw [CoverPage.write, Function.update_of_ne hgf]
      exact h.texts g hg
  lists := by
    intro g hg
    have hgf : g ≠ f := by
      rintro rfl
      exact hf hg
    rw [CoverPage.write, Function.update_of_ne hgf]
    exact h.lists g hg

/-- A text is written with each of its characters escaped. -/
theorem escapeValue_str (s : Text) : escapeValue (.str s) = .ok (escapeLatex s) := by
  have hitems : (s.map fun c => Json.str [c]).mapM escapeItem =
      .ok (s.map fun c => .str (escapeLatexChar c)) := by
    induction s with
    | nil => rfl
    | cons c s ih =>
      rw [List.map_cons, List.mapM_cons, ih]
      rfl
  have hjoin : ∀ n, joinItems n (s.map fun c => .str (escapeLatexChar c)) =
      .ok (escapeLatex s) := by
    clear hitems
    induction s with
    | nil => exact fun n => rfl
    | cons c s ih =>
      intro n
      rw [List.map_cons, joinItems, ih]
      rfl
  calc escapeValue (.str s)
      = ((s.map fun c => Json.str [c]).mapM escapeItem >>= joinItems 0) := rfl
    _ = joinItems 0 (s.map fun c => .str (escapeLatexChar c)) := by rw [hitems]; rfl
    _ = .ok (escapeLatex s) := hjoin 0

/-- Steps that succeed one by one succeed in a row. -/
theorem exists_mapM_ok {α β ε : Type} {f : α → Except ε β} {l : List α} {P : β → Prop}
    (h : ∀ a ∈ l, ∃ b, f a = .ok b ∧ P b) :
    ∃ bs, l.mapM f = .ok bs ∧ bs.length = l.length ∧ ∀ b ∈ bs, P b := by
  induction l with
  | nil => exact ⟨[], rfl, rfl, by simp⟩
  | cons a l ih =>
    obtain ⟨b, hb, hP⟩ := h a (by simp)
    obtain ⟨bs, hbs, hlength, hall⟩ := ih fun a ha => h a (by simp [ha])
    refine ⟨b :: bs, ?_, by simp [hlength], by simpa using ⟨hP, hall⟩⟩
    rw [List.mapM_cons, hb, hbs]
    rfl

/-! ## The source of a page -/

/-- Some row of the page asks for space behind it: the one of the department or of a question. -/
def CoverPage.SpacesRows (page : CoverPage) : Prop :=
  (page .department).isTruthy = true ∨ page .questions ≠ .arr []

/-- How a row that asks for space ends. -/
def spacedEnd : Text := ['\\', '\\', '[']

section Rows

variable {spaced : Bool} {page : CoverPage}

theorem IsMarkup.applied {name t : Text} {command : String} (hcommand : command.toList = '\\' :: name)
    (hname : name ∈ markupCommands) (h : IsMarkup spaced t) : IsMarkup spaced (applied command t) := by
  rw [LatexPreview.applied, hcommand]
  exact (IsMarkup.command hname).append h.braced

theorem isMarkup_textbf {t : Text} (h : IsMarkup spaced t) : IsMarkup spaced (applied "\\textbf" t) :=
  h.applied rfl (by decide)

theorem isMarkup_label {detail : String × Option CoverField} (h : detail ∈ coverDetails) :
    IsMarkup spaced detail.1.toList := by
  simp only [coverDetails, List.mem_cons, List.not_mem_nil, or_false] at h
  rcases h with rfl | rfl | rfl | rfl | rfl | rfl | rfl | rfl | rfl | rfl
  case inr.inr.inr.inr.inr.inr.inr.inr.inr =>
    have hfront : IsMarkup spaced "Faculty Sign with Name ".toList := .plain (by simp)
    have hrest : IsMarkup spaced " Date".toList := .plain (by simp)
    exact (hfront.append (.symbol (c := '&') (by decide))).append hrest
  all_goals exact .plain (by simp)

theorem isMarkup_hline : IsMarkup spaced "\\hline".toList :=
  .command (by decide)

theorem CoverPage.Textual.exists_escapeValue (h : page.Textual) {f : CoverField}
    (hf : f ∉ [CoverField.enabled, .questions, .institution]) :
    ∃ t, escapeValue (page f) = .ok t ∧ IsMarkup spaced t := by
  obtain ⟨s, hs⟩ := h.texts f hf
  exact ⟨escapeLatex s, by rw [hs, escapeValue_str], isMarkup_escapeLatex s⟩

theorem exists_detailRow (h : page.Textual)
    {detail : String × Option CoverField} (hdetail : detail ∈ coverDetails) :
    ∃ row, detailRow page detail = .ok row ∧ IsMarkup spaced row := by
  have hrow : ∀ {t}, IsMarkup spaced t →
      IsMarkup spaced
        (applied "\\textbf" detail.1.toList ++ " & ".toList ++ t ++ " \\\\ \\hline".toList) := by
    intro t ht
    have hand : IsMarkup spaced " & ".toList := .plain (by simp)
    have hend : IsMarkup spaced " \\\\ \\hline".toList :=
      (IsMarkup.plain (t := [' ']) (by simp)).append
        ((IsMarkup.rowEnd (c := ' ') (by simp [rowEnds])).append isMarkup_hline)
    exact (((isMarkup_textbf (isMarkup_label hdetail)).append hand).append ht).append hend
  have hfields : ∀ d ∈ coverDetails, ∀ f, d.2 = some f →
      f ∉ [CoverField.enabled, .questions, .institution] := by
    decide
  cases hfield : detail.2 with
  | none => exact ⟨_, by rw [detailRow, hfield]; rfl, hrow .nil⟩
  | some f =>
    obtain ⟨t, ht, hmarkup⟩ := h.exists_escapeValue (hfields detail hdetail f hfield)
    exact ⟨_, by rw [detailRow, hfield]; simp only [ht]; rfl, hrow hmarkup⟩

theorem exists_questionRow (hspaced : spaced = true) (s : Text) (n : Nat) :
    ∃ row, questionRow (.str s, n) = .ok row ∧ IsMarkup spaced row ∧ spacedEnd <:+: row := by
  refine ⟨_, by rw [questionRow, escapeValue_str]; rfl, ?_, ?_⟩
  · have hnumber : IsMarkup spaced ('Q' :: Text.ofNat n ++ [':']) := by
      refine .plain fun c hc hmem => ?_
      simp only [List.cons_append, List.mem_cons, List.mem_append, List.not_mem_nil, or_false]
        at hc hmem
      rcases hc with rfl | hc | rfl
      · exact absurd hmem (by decide)
      · have hdigit := isDigit_of_mem_ofNat hc
        rcases hmem with rfl | rfl | rfl | rfl <;> exact absurd hdigit (by decide)
      · exact absurd hmem (by decide)
    have hblank : IsMarkup spaced [' '] := .plain (by simp)
    have hbracket : '[' ∈ rowEnds spaced := by simp [rowEnds, hspaced]
    have hspace : IsMarkup spaced "1.5cm] ".toList := .plain (by simp)
    have hend : IsMarkup spaced " \\\\[1.5cm] \\hline".toList :=
      hblank.append ((IsMarkup.rowEnd hbracket).append (hspace.append isMarkup_hline))
    exact ((isMarkup_textbf hnumber).append (hblank.append (isMarkup_escapeLatex s))).append hend
  · exact ⟨applied "\\textbf" ('Q' :: Text.ofNat n ++ [':']) ++ ' ' :: escapeLatex s ++ [' '],
      "1.5cm] \\hline".toList, by simp [spacedEnd]⟩

/-- A line in bold letters of some size. -/
theorem isMarkup_sized {size t : Text} (hsize : size ∈ markupCommands) (ht : IsMarkup spaced t) :
    IsMarkup spaced (applied "\\textbf" ('\\' :: size ++ [' '] ++ t)) := by
  have hblank : IsMarkup spaced [' '] := .plain (by simp)
  exact isMarkup_textbf (((IsMarkup.command hsize).append hblank).append ht)

theorem exists_institutionLine (s : Text) (n : Nat) :
    ∃ line, institutionLine (.str s, n) = .ok line ∧ IsMarkup spaced (line ++ ['\n']) := by
  refine ⟨_, by rw [institutionLine, escapeValue_str]; rfl, ?_⟩
  have hend : IsMarkup spaced ['\\', '\\', '\n'] := .rowEnd (by simp [rowEnds])
  have hlarge : "Large".toList ∈ markupCommands := by decide
  simp only [List.append_assoc]
  refine IsMarkup.append ?_ hend
  split
  · exact isMarkup_sized hlarge (isMarkup_escapeLatex s)
  · exact isMarkup_escapeLatex s

/-- The heading can be written, and asks for space if it names a department. -/
theorem exists_headingLines (h : page.Textual)
    (hspaced : (page .department).isTruthy = true → spaced = true) :
    ∃ lines, headingLines page = .ok lines ∧ (∀ l ∈ lines, IsMarkup spaced (l ++ ['\n'])) ∧
      ((page .department).isTruthy = true → ∃ l ∈ lines, spacedEnd <:+: l) := by
  have hrowEnd : IsMarkup spaced ['\\', '\\', '\n'] := .rowEnd (by simp [rowEnds])
  have hnewline : IsMarkup spaced ['\n'] := .plain (by simp)
  have hlarge : "large".toList ∈ markupCommands := by decide
  have hLarge : "Large".toList ∈ markupCommands := by decide
  obtain ⟨items, hitems⟩ := h.lists .institution (by decide)
  obtain ⟨institution, hinstitution, -, hall⟩ := exists_mapM_ok (f := institutionLine)
    (l := (items.map Json.str).zipIdx) (P := fun line => IsMarkup spaced (line ++ ['\n'])) <| by
      rintro ⟨item, n⟩ hitem
      obtain ⟨s, -, rfl⟩ := List.mem_map.1 (List.fst_mem_of_mem_zipIdx hitem)
      exact exists_institutionLine s n
  obtain ⟨department, hdepartment, hdepartmentMarkup⟩ :=
    h.exists_escapeValue (f := .department) (by decide)
  obtain ⟨heading, hheading, hheadingMarkup⟩ :=
    h.exists_escapeValue (f := .heading) (by decide)
  obtain ⟨year, hyear, hyearMarkup⟩ :=
    h.exists_escapeValue (f := .academicYear) (by decide)
  have hlines : headingLines page = .ok (institution
      ++ (if (page .department).isTruthy then
        [applied "\\textbf" ("\\large ".toList ++ department) ++ "\\\\[0.5cm]".toList] else [])
      ++ [applied "\\textbf" ("\\Large ".toList ++ heading) ++ "\\\\".toList]
      ++ if (page .academicYear).isTruthy then [year] else []) := by
    rw [headingLines, hitems]
    by_cases hd : (page .department).isTruthy = true <;>
      by_cases hy : (page .academicYear).isTruthy = true <;>
        simp only [hd, hy, hdepartment, hheading, hyear, Json.elements, bind, Except.bind, pure,
          Except.pure, hinstitution, if_true, if_false, Bool.false_eq_true]
  refine ⟨_, hlines, ?_, fun hd =>
    ⟨applied "\\textbf" ("\\large ".toList ++ department) ++ "\\\\[0.5cm]".toList, by simp [hd],
      applied "\\textbf" ("\\large ".toList ++ department), "0.5cm]".toList, by simp [spacedEnd]⟩⟩
  intro l hl
  simp only [List.mem_append, List.mem_ite_nil_right, List.mem_singleton] at hl
  rcases hl with ((hl | ⟨hd, rfl⟩) | rfl) | ⟨-, rfl⟩
  · exact hall l hl
  · have hspace : IsMarkup spaced "0.5cm]\n".toList := .plain (by simp)
    have hrow := (isMarkup_sized hlarge hdepartmentMarkup).append
      ((IsMarkup.rowEnd (c := '[') (by simp [rowEnds, hspaced hd])).append hspace)
    simpa using hrow
  · have hrow := (isMarkup_sized hLarge hheadingMarkup).append hrowEnd
    simpa using hrow
  · exact hyearMarkup.append hnewline

/-- Lines, each behind the end of another one. -/
def stacked (lines : List Text) : Text := lines.flatMap ('\n' :: ·)

theorem stacked_append (ls ms : List Text) : stacked (ls ++ ms) = stacked ls ++ stacked ms :=
  List.flatMap_append

theorem stacked_join {lines : List Text} (h : lines ≠ []) :
    '\n' :: Text.join ['\n'] lines = stacked lines := by
  induction lines with
  | nil => exact absurd rfl h
  | cons l lines ih =>
    cases lines with
    | nil => simp [stacked, Text.join]
    | cons k lines =>
      calc '\n' :: Text.join ['\n'] (l :: k :: lines)
          = '\n' :: l ++ ('\n' :: Text.join ['\n'] (k :: lines)) := by simp [Text.join]
        _ = stacked (l :: k :: lines) := by rw [ih (by simp)]; rfl

/-- Lines in an environment. -/
theorem isMarkup_centred {lines : List Text} (h : IsMarkup spaced (stacked lines ++ ['\n'])) :
    IsMarkup spaced (stacked (centred lines)) := by
  have hnewline : IsMarkup spaced ['\n'] := .plain (by simp)
  have hcentred : stacked (centred lines) = ['\n'] ++ (beginTag "center".toList ++
      (stacked lines ++ ['\n']) ++ endTag "center".toList) := by
    simp only [centred, stacked, List.flatMap_append, List.flatMap_cons, List.flatMap_nil,
      List.append_nil, List.cons_append, List.nil_append, List.append_assoc]
  rw [hcentred]
  exact hnewline.append (h.env (by decide))

theorem isMarkup_ruledTable {columns rows : Text} (hcolumns : IsMarkup spaced columns)
    (hrows : IsMarkup spaced rows) : IsMarkup spaced (stacked (ruledTable columns rows)) := by
  have hnewline : IsMarkup spaced ['\n'] := .plain (by simp)
  have htable : stacked (ruledTable columns rows) = ['\n'] ++ (beginTag "tabular".toList ++
      (braced columns ++ (['\n'] ++ "\\hline".toList ++ (['\n'] ++ rows ++ ['\n']))) ++
        endTag "tabular".toList) := by
    simp only [ruledTable, stacked, List.flatMap_cons, List.flatMap_nil, List.append_nil,
      List.cons_append, List.nil_append, List.append_assoc]
  rw [htable]
  exact hnewline.append ((hcolumns.braced.append ((hnewline.append isMarkup_hline).append
    ((hnewline.append hrows).append hnewline))).env (by decide))

/-- Space below a part of the page, and how far the rows behind it are apart. -/
theorem isMarkup_settings {size factor : String}
    (hsize : ∀ c ∈ size.toList, c.isAlphanum = true ∨ c = '.')
    (hfactor : ∀ c ∈ factor.toList, c.isAlphanum = true ∨ c = '.') :
    IsMarkup spaced (stacked [[], verticalSpace size, [], rowStretch factor, []]) := by
  have hgap : IsMarkup spaced ['\n', '\n'] := .plain (by simp)
  have hnewline : IsMarkup spaced ['\n'] := .plain (by simp)
  have hlines : ∀ v w : Text, stacked [[], v, [], w, []] =
      ['\n', '\n'] ++ (v ++ ['\n'] ++ (['\n'] ++ (w ++ ['\n']))) := by
    intro v w
    simp [stacked]
  have hspace := @IsMarkup.setting spaced (.space ⟨size.toList, hsize⟩)
  have hstretch := @IsMarkup.setting spaced (.stretch ⟨factor.toList, hfactor⟩)
  rw [hlines]
  exact hgap.append (hspace.append (hnewline.append hstretch))

theorem isMarkup_heading {lines : List Text} (h : ∀ l ∈ lines, IsMarkup spaced (l ++ ['\n'])) :
    IsMarkup spaced (stacked [Text.join ['\n'] lines] ++ ['\n']) := by
  have hnewline : IsMarkup spaced ['\n'] := .plain (by simp)
  have hends : ∀ ls : List Text, stacked ls ++ ['\n'] = ['\n'] ++ ls.flatMap (· ++ ['\n']) := by
    intro ls
    induction ls with
    | nil => rfl
    | cons l ls ih =>
      rw [← List.singleton_append, stacked_append, List.append_assoc, ih]
      simp [stacked]
  have hmarkup : IsMarkup spaced (lines.flatMap (· ++ ['\n'])) := by
    induction lines with
    | nil => exact .nil
    | cons l lines ih => exact (h l (by simp)).append (ih fun k hk => h k (by simp [hk]))
  by_cases hne : lines = []
  · rw [hne]
    exact hnewline.append hnewline
  · have hone : stacked [Text.join ['\n'] lines] = stacked lines := by
      simpa [stacked] using stacked_join hne
    rw [hone, hends]
    exact hnewline.append hmarkup

/-- The lines of a page with the lines of its heading and the rows of its two tables. -/
def pageLines (heading details questions : List Text) : List Text :=
  [[]] ++ centred [Text.join ['\n'] heading]
    ++ [[], verticalSpace "0.8cm", [], rowStretch "1.5", []]
    ++ centred (ruledTable ('|' :: column "6cm" ++ column "8cm") (Text.join ['\n'] details))
    ++ [[], verticalSpace "1cm", [], rowStretch "2", []]
    ++ centred (ruledTable ('|' :: column "14cm") (Text.join ['\n'] questions))
    ++ [[], "\\newpage".toList, []]

/-- The lines are markup if those of the heading and the rows are. -/
theorem isMarkup_pageLines {heading details questions : List Text}
    (hheading : ∀ l ∈ heading, IsMarkup spaced (l ++ ['\n']))
    (hdetails : ∀ row ∈ details, IsMarkup spaced row)
    (hquestions : ∀ row ∈ questions, IsMarkup spaced row) :
    IsMarkup spaced (stacked (pageLines heading details questions)) := by
  have hgap : IsMarkup spaced "\n\n".toList := .plain (by simp)
  have hnewline : IsMarkup spaced ['\n'] := .plain (by simp)
  have hrule : IsMarkup spaced ['|'] := .plain (by simp)
  have hcolumn : ∀ width : String, (∀ c ∈ width.toList, c ∉ ['\\', '$', '{', '}']) →
      IsMarkup spaced (column width) := fun _ hwidth =>
    ((IsMarkup.plain (t := ['p']) (by simp)).append (IsMarkup.plain hwidth).braced).append hrule
  have hdetailsTable := isMarkup_ruledTable (hrule.append
    ((hcolumn "6cm" (by simp)).append (hcolumn "8cm" (by simp)))) (IsMarkup.join hdetails)
  have hquestionsTable := isMarkup_ruledTable (hrule.append (hcolumn "14cm" (by simp)))
    (IsMarkup.join hquestions)
  have hnewPage : IsMarkup spaced (stacked [[], "\\newpage".toList, []]) :=
    hgap.append (IsMarkup.setting .newPage)
  have hfirst : IsMarkup spaced (stacked [[]]) := hnewline
  rw [pageLines, stacked_append, stacked_append, stacked_append, stacked_append, stacked_append,
    stacked_append]
  exact (((((hfirst.append (isMarkup_centred (isMarkup_heading hheading))).append
    (isMarkup_settings (by simp) (by simp))).append
    (isMarkup_centred (hdetailsTable.append hnewline))).append
    (isMarkup_settings (by simp) (by simp))).append
    (isMarkup_centred (hquestionsTable.append hnewline))).append hnewPage

/-- The lines of the heading and the rows of questions stand in the page. -/
theorem infix_pageLines {heading details questions : List Text} {l : Text}
    (h : l ∈ heading ∨ l ∈ questions) :
    l <:+: Text.join ['\n'] (pageLines heading details questions) := by
  rcases h with h | h
  · have hline : l <:+: Text.join ['\n'] heading := infix_join _ h
    exact hline.trans (infix_join _ (by simp [pageLines, centred]))
  · have hrow : l <:+: Text.join ['\n'] questions := infix_join _ h
    exact hrow.trans (infix_join _ (by simp [pageLines, centred, ruledTable]))

/-- The rows of questions can be written, and all ask for space. -/
theorem exists_questionRows (h : page.Textual) (hspaced : page.SpacesRows → spaced = true) :
    ∃ items questions, (page .questions).elements = .ok items ∧
      (items.zipIdx 1).mapM questionRow = .ok questions ∧
      (page .questions ≠ .arr [] → questions ≠ []) ∧
      ∀ row ∈ questions, IsMarkup spaced row ∧ spacedEnd <:+: row := by
  obtain ⟨items, hitems⟩ := h.lists .questions (by decide)
  obtain ⟨questions, hquestions, hlength, hmarkup⟩ := exists_mapM_ok (f := questionRow)
    (l := (items.map Json.str).zipIdx 1) (P := fun row => IsMarkup spaced row ∧ spacedEnd <:+: row) <| by
      rintro ⟨item, n⟩ hitem
      obtain ⟨s, hs, rfl⟩ := List.mem_map.1 (List.fst_mem_of_mem_zipIdx hitem)
      refine exists_questionRow (hspaced (.inr fun hnone => ?_)) s n
      rw [hitems, Json.arr.injEq, List.map_eq_nil_iff] at hnone
      exact absurd hs (by simp [hnone])
  refine ⟨items.map .str, questions, by rw [hitems]; rfl, hquestions, fun hsome hnil => hsome ?_, hmarkup⟩
  rw [hnil] at hlength
  rw [hitems, List.map_eq_nil_iff.2 (List.length_eq_zero_iff.1 (by simpa using hlength.symm))]

/-- The source of a page can be written, and is markup.  It asks for space behind a row only if
the page has such rows. -/
theorem coverBody_eq (h : page.Textual) (hspaced : page.SpacesRows → spaced = true) :
    ∃ body, coverBody page = .ok body ∧ IsMarkup spaced ('\n' :: body) ∧
      (page.SpacesRows → spacedEnd <:+: body) := by
  obtain ⟨details, hdetails, -, hdetailsMarkup⟩ := exists_mapM_ok
    fun detail hdetail => exists_detailRow h hdetail
  obtain ⟨items, questions, hitems, hquestions, hsome, hquestionsMarkup⟩ :=
    exists_questionRows h hspaced
  obtain ⟨heading, hheading, hheadingMarkup, hheadingEnd⟩ := exists_headingLines h
    fun hd => hspaced (.inl hd)
  have hbody : coverBody page = .ok (Text.join ['\n'] (pageLines heading details questions)) := by
    rw [coverBody, hdetails, hitems]
    simp only [bind, Except.bind, pure, Except.pure, hquestions, hheading]
    rfl
  refine ⟨_, hbody, ?_, ?_⟩
  · rw [stacked_join (by simp [pageLines])]
    exact isMarkup_pageLines hheadingMarkup hdetailsMarkup fun row hrow => (hquestionsMarkup row hrow).1
  · rintro (hd | hq)
    · obtain ⟨l, hl, hend⟩ := hheadingEnd hd
      exact hend.trans (infix_pageLines (.inl hl))
    · obtain ⟨row, more, hrows⟩ := List.exists_cons_of_ne_nil (hsome hq)
      have hrow : row ∈ questions := by simp [hrows]
      exact (hquestionsMarkup row hrow).2.trans (infix_pageLines (.inr hrow))

/-- The last of several lines that are joined is empty if the text ends where a line ends. -/
theorem getLast?_join {lines : List Text} (h : lines ≠ []) :
    (Text.join ['\n'] (lines ++ [[]])).getLast? = some '\n' := by
  induction lines with
  | nil => exact absurd rfl h
  | cons l lines ih =>
    cases lines with
    | nil => simp [Text.join]
    | cons k lines =>
      have hlater := ih (by simp)
      rw [List.cons_append] at hlater
      rw [List.cons_append, List.cons_append, Text.join, List.getLast?_append, hlater]
      rfl

/-- The source of a page ends with the end of a line. -/
theorem getLast?_coverBody {body : Text} (h : coverBody page = .ok body) :
    body.getLast? = some '\n' := by
  have hbind : ∀ {α β : Type} {x : Except BodyError α} {f : α → Except BodyError β} {b : β},
      x >>= f = .ok b → ∃ a, f a = .ok b := by
    intro α β x f b hb
    cases x with
    | error e => exact absurd hb (by simp [bind, Except.bind])
    | ok a => exact ⟨a, hb⟩
  obtain ⟨details, h⟩ := hbind h
  obtain ⟨items, h⟩ := hbind h
  obtain ⟨questions, h⟩ := hbind h
  obtain ⟨heading, h⟩ := hbind h
  obtain rfl := Except.ok.inj h
  have hlast : ∀ front : List Text, front ++ [[], "\\newpage".toList, []] =
      (front ++ [[], "\\newpage".toList]) ++ [[]] := by simp
  rw [hlast]
  exact getLast?_join (by simp)

end Rows

/-! ## Names behind backslashes -/

/-- The names of the commands in a declaration. -/
def PageSetting.names : PageSetting → List Text
  | package _ => ["usepackage".toList]
  | space _ => ["vspace".toList]
  | stretch _ => ["renewcommand".toList, "arraystretch".toList]
  | newPage => ["newpage".toList]

/-- The names of the commands in declarations. -/
def settingNames : List Text :=
  ["usepackage", "vspace", "renewcommand", "arraystretch", "newpage"].map (·.toList)

/-- The names behind the backslashes of the tags of environments. -/
def tagNames : List Text :=
  markupEnvironments.flatMap fun name => ["begin".toList ++ braced name, "end".toList ++ braced name]

/-- The names behind backslashes in markup. -/
def markupNames (spaced : Bool) : List Text :=
  ['\\'] :: (escapables ++ rowEnds spaced).map ([·]) ++ markupCommands ++ settingNames ++ tagNames

section Names

variable {spaced : Bool} {s : Text}

theorem Measure.not_mem {c : Char} (w : Measure) (hc : c.isAlphanum = false) (hdot : c ≠ '.') :
    c ∉ w.1 := by
  intro hmem
  rcases w.2 c hmem with halpha | rfl
  · exact absurd halpha (by simp [hc])
  · exact hdot rfl

theorem PageSetting.commands_names (x : PageSetting) (s : Text) : Commands x.names x.text s := by
  have hmeasure : ∀ {names : List Text} (w : Measure) (s : Text), Commands names (braced w.1) s := by
    intro names w s
    refine commands_of_not_mem ?_
    simp [braced, w.not_mem]
  cases x with
  | package name =>
    exact commands_append.2
      ⟨commands_word (n := "usepackage".toList) (by simp [names]) (by decide), hmeasure name _⟩
  | space size =>
    exact commands_append.2
      ⟨commands_word (n := "vspace".toList) (by simp [names]) (by decide), hmeasure size _⟩
  | stretch factor =>
    refine commands_append.2 ⟨commands_append.2
      ⟨commands_word (n := "renewcommand".toList) (by simp [names]) (by decide), ?_⟩,
      hmeasure factor _⟩
    refine ⟨fun heq => absurd heq (by decide), commands_append.2
      ⟨commands_word (n := "arraystretch".toList) (by simp [names]) (by decide), ?_⟩⟩
    exact commands_of_not_mem (by decide)
  | newPage => exact commands_word (n := "newpage".toList) (by simp [names]) (by decide)

theorem PageSetting.commands (x : PageSetting) : Commands settingNames x.text s := by
  refine (x.commands_names s).mono fun n hn => ?_
  cases x <;> simp only [names, List.mem_cons, List.not_mem_nil, or_false] at hn
  · rw [hn]
    decide
  · rw [hn]
    decide
  · rcases hn with rfl | rfl <;> decide
  · rw [hn]
    decide

theorem not_mem_of_known {name : Text} (h : name ∈ markupCommands ++ markupEnvironments) :
    '\\' ∉ name := by
  have hall : ∀ n ∈ markupCommands ++ markupEnvironments, '\\' ∉ n := by decide
  exact hall name h

/-- Behind a backslash in markup stands one of the names, whatever follows. -/
theorem Markup.commands (m : Markup spaced) (s : Text) : Commands (markupNames spaced) m.text s := by
  induction m generalizing s with
  | nil => trivial
  | char c hc more ih =>
    refine ⟨fun heq => absurd ?_ hc, ih s⟩
    simp [heq]
  | symbol c hc more ih =>
    refine ⟨fun _ => .inr ⟨[c], by simp [markupNames, hc], List.prefix_append [c] _⟩, ?_, ih s⟩
    rintro rfl
    exact absurd hc (by decide)
  | command name hname more ih =>
    have hplain := not_mem_of_known (List.mem_append_left _ hname)
    exact commands_append.2 ⟨commands_word (by simp [markupNames, hname]) hplain, ih s⟩
  | rowEnd c hc more ih =>
    refine ⟨fun _ => .inr ⟨['\\'], by simp [markupNames], List.prefix_append ['\\'] _⟩,
      fun _ => .inr ⟨[c], by simp [markupNames, hc], List.prefix_append [c] _⟩, ?_, ih s⟩
    rintro rfl
    cases spaced <;> exact absurd hc (by decide)
  | group inner more ihinner ihmore =>
    refine commands_append.2 ⟨?_, ihmore s⟩
    refine ⟨fun heq => absurd heq (by decide), commands_append.2 ⟨ihinner _, ?_⟩⟩
    exact commands_of_not_mem (by decide)
  | env name hname inner more ihinner ihmore =>
    have hplain := not_mem_of_known (List.mem_append_right _ hname)
    have htag : ∀ word ∈ ["begin".toList, "end".toList], ∀ s,
        Commands (markupNames spaced) ('\\' :: word ++ braced name) s := by
      intro word hword s
      have hmem : word ++ braced name ∈ tagNames := by
        refine List.mem_flatMap.2 ⟨name, hname, ?_⟩
        simp only [List.mem_cons, List.not_mem_nil, or_false] at hword
        rcases hword with rfl | rfl <;> simp
      refine commands_word (by simp [markupNames, hmem]) ?_
      simp only [List.mem_cons, List.not_mem_nil, or_false] at hword
      rcases hword with rfl | rfl <;> simp [braced, hplain]
    refine commands_append.2 ⟨commands_append.2 ⟨commands_append.2 ⟨?_, ihinner _⟩, ?_⟩, ihmore s⟩
    · exact htag "begin".toList (by simp) _
    · exact htag "end".toList (by simp) _
  | setting x more ih =>
    refine commands_append.2 ⟨x.commands.mono fun n hn => by simp [markupNames, hn], ?_⟩
    exact ⟨fun heq => absurd heq (by decide), ih s⟩

end Names

end LatexPreview
