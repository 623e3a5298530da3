import Mathlib
import LatexPreview.Proofs.Tables.Source

/-!
# The rows of a table

What is left of a source without its lines is divided at the row breaks, and each part at its
ampersands.  The parts of a source that is made of rows of cells are these rows, and their parts are
the cells, but for blanks around them.

* `split_break`: a text divided at a row break
* `shownRow`: a part without the space below the break in front of it
* `rowCells_text`: the cells of a row
* `tableRows_text`: the rows of a source
* `tableHtml_source`: a source is shown row by row
-/

namespace LatexPreview

open Pattern Text

/-! ## Row breaks -/

section Breaks

variable {x : Text}

theorem skips_escaping (hx : Escaping x) (b : Option Char) (s : Text) :
    (word "\\\\").Skips b x s := by
  have hrefuses : (word "\\\\").Refuses ['\\', '&'] := by decide
  induction hx generalizing b with
  | nil => trivial
  | @char c x hc _ ih =>
    exact ⟨(opens_rowBreak.skips (x := [c]) (by simpa using Ne.symm hc) (x ++ s)).1, ih _⟩
  | @ampersand x _ ih =>
    exact ⟨hrefuses.run_eq_none (s := x ++ s) rfl some,
      (opens_rowBreak.skips (x := ['&']) (by simp) (x ++ s)).1, ih _⟩

/-- A text is divided at its first row break. -/
theorem split_break (hx : Escaping x) (y : Text) :
    (word "\\\\").split (x ++ ("\\\\".toList ++ y)) = x :: (word "\\\\").split y := by
  have hedges : ∀ b, (word "\\\\").EdgesAgree b none := fun b => edgesAgree_lit _
  have hword : "\\\\".toList ≠ [] := by decide
  obtain ⟨stop, hstop, hrest⟩ := Option.map_eq_some_iff.1 <|
    (at?_lit "\\\\".toList (x.getLast?.or none) _).trans (dropFront?_append "\\\\".toList y)
  have hhit := slicedFrom_hit opens_rowBreak.consumes hword hstop hrest
  rw [slicedFrom_congr opens_rowBreak.consumes (hedges ("\\\\".toList.getLast?.or (x.getLast?.or none)))] at hhit
  have hsplit : ∀ s, (word "\\\\").split s = ((word "\\\\").slicedFrom none s).gaps :=
    fun s => Cut.parts_eq_gaps _
  rw [hsplit, hsplit, slicedFrom_skips opens_rowBreak.consumes (skips_escaping hx none _), hhit]
  exact congrArg (· :: _) (List.append_nil x)

theorem split_escaping (hx : Escaping x) : (word "\\\\").split x = [x] := by
  have hcut := cutFrom_eq_tail opens_rowBreak.consumes (skips_escaping hx none [])
  rw [Pattern.split, show (word "\\\\").cut x = _ from hcut]
  rfl

end Breaks

/-! ## Spaces below breaks -/

/-- What is shown of the text between two breaks. -/
def shownRow (part : Text) : Text := (rowSpacing.eraseFront part.trim).trim

theorem tableRows_eq (s : Text) :
    tableRows s = (((word "\\\\").split (rulePattern.erase s)).map shownRow).filter (!·.isEmpty) := rfl

/-- A space below a break is taken off. -/
theorem shownRow_eq {spacing : Option Text}
    (hshort : ∀ length ∈ spacing, ∀ c ∈ length, c ∉ [']', '&', '\\']) {l x t : Text}
    (hl : ∀ c ∈ l, isBlank c = true) (ht : ∀ c ∈ t, isBlank c = true) (hx : x.trim.head? ≠ some '[') :
    shownRow (spacingText spacing ++ (l ++ (x ++ t))) = x.trim := by
  have hblanks : (l ++ (x ++ t)).trim = x.trim := trim_blanks hl ht
  cases spacing with
  | none =>
    have hnone : rowSpacing.at? none x.trim = none := by
      refine Option.eq_none_iff_forall_ne_some.2 fun stop hstop => hx ?_
      obtain ⟨w, hw⟩ := opens_rowSpacing _ _ (matches_of_at? hstop)
      rw [show x.trim = _ from hw]
      rfl
    rw [shownRow, spacingText, Option.elim_none, List.nil_append, hblanks, Pattern.eraseFront, hnone]
    exact trim_trim x
  | some length =>
    have hfree : ']' ∉ length := fun hmem => hshort length rfl ']' hmem (by simp)
    have htrim : Text.trim ('[' :: (length ++ [']']) ++ (l ++ (x ++ t))) =
        '[' :: (length ++ [']']) ++ (l ++ (x ++ t)).trimEnd := by
      have hlast : ∃ c ∈ ('[' :: (length ++ [']'])).getLast?, isBlank c = false :=
        ⟨']', by simp [List.getLast?_cons], by decide⟩
      have hstart : Text.trimStart ('[' :: (length ++ [']']) ++ (l ++ (x ++ t))) =
          '[' :: (length ++ [']']) ++ (l ++ (x ++ t)) :=
        List.dropWhile_cons_of_neg (show ¬ isBlank '[' = true by decide)
      rw [Text.trim, hstart, trimEnd_behind hlast]
    have hstop : rowSpacing.at? none ('[' :: (length ++ [']']) ++ (l ++ (x ++ t)).trimEnd) =
        some ⟨some ']', (l ++ (x ++ t)).trimEnd, []⟩ := by
      have hinside := run_upto (show "]".toList = [']'] from rfl) hfree
        (c := ⟨some '[', length ++ ']' :: (l ++ (x ++ t)).trimEnd, []⟩) rfl some
      have hwhole : '[' :: (length ++ [']']) ++ (l ++ (x ++ t)).trimEnd =
          '[' :: (length ++ ']' :: (l ++ (x ++ t)).trimEnd) := by simp
      rw [hwhole]
      exact hinside
    rw [shownRow, spacingText, Option.elim_some, htrim, Pattern.eraseFront, hstop]
    exact (trim_trimEnd _).trans hblanks

/-! ## Cells -/

theorem cellSeparator_at? (b : Option Char) (c : Char) (s : Text) :
    cellSeparator.at? b (c :: s) =
      if b ≠ some '\\' ∧ c = '&' then some ⟨some '&', s, []⟩ else none := by
  have hrun : cellSeparator.at? b (c :: s) =
      if (b != some '\\') = true then (one (· == '&')).run ⟨b, c :: s, []⟩ some else none := rfl
  rw [hrun]
  by_cases hb : b = some '\\' <;> by_cases hc : c = '&' <;> simp [hb, hc, run, Cursor.next]

theorem trims_cellSeparator : cellSeparator.Trims := by
  refine ⟨⟨'&', by decide, opens_cellSeparator⟩, fun b s t ht => ?_⟩
  cases s with
  | nil =>
    have hnil : cellSeparator.at? b [] = none := opens_cellSeparator.consumes.run_nil rfl some
    cases t with
    | nil => rw [List.append_nil, hnil]; rfl
    | cons c t =>
      have hc : c ≠ '&' := by
        rintro rfl
        exact absurd (ht '&' (by simp)) (by decide)
      rw [List.nil_append, hnil, cellSeparator_at?, if_neg (by simp [hc])]
      rfl
  | cons c s =>
    rw [List.cons_append, cellSeparator_at?, cellSeparator_at?]
    split <;> rfl

/-- In a cell there is no separator, and none of those behind it is escaped by it. -/
theorem IsCell.skips {c : Text} (hc : IsCell c) {b : Option Char} (hb : b ≠ some '\\') (s : Text) :
    cellSeparator.Skips b c s ∧ c.getLast?.or b ≠ some '\\' := by
  have hlast : ∀ (d : Char) (r : Text) b, (d :: r).getLast?.or b = r.getLast?.or (some d) :=
    fun d r b => getLast?_append_or [d] r b
  induction hc generalizing b with
  | nil => exact ⟨trivial, hb⟩
  | @char d c hd _ ih =>
    simp only [List.mem_cons, List.not_mem_nil, or_false, not_or] at hd
    obtain ⟨hskips, hend⟩ := ih (b := some d) (by simpa using hd.2)
    exact ⟨⟨by rw [cellSeparator_at?, if_neg (by simp [hd.1])], hskips⟩, by rwa [hlast]⟩
  | @ampersand c _ ih =>
    obtain ⟨hskips, hend⟩ := ih (b := some '&') (by simp)
    refine ⟨⟨by rw [cellSeparator_at?, if_neg (by simp)], ?_, hskips⟩, by rwa [hlast, hlast]⟩
    rw [cellSeparator_at?, if_neg (by simp)]

/-- Cells between ampersands are divided there. -/
theorem gaps_join {cells : List Text} (hne : cells ≠ []) (hcells : ∀ c ∈ cells, IsCell c)
    {b : Option Char} (hb : b ≠ some '\\') :
    (cellSeparator.slicedFrom b (join ['&'] cells)).gaps = cells := by
  induction cells generalizing b with
  | nil => exact absurd rfl hne
  | cons c cells ih =>
    cases cells with
    | nil =>
      obtain ⟨hskips, -⟩ := (hcells c (by simp)).skips hb []
      have hall := slicedFrom_skips opens_cellSeparator.consumes hskips
      rw [List.append_nil, slicedFrom_nil opens_cellSeparator.consumes] at hall
      rw [join, hall]
      exact congrArg (fun x => [x]) (List.append_nil c)
    | cons d cells =>
      obtain ⟨hskips, hend⟩ := (hcells c (by simp)).skips hb ('&' :: join ['&'] (d :: cells))
      have hsep : cellSeparator.at? (c.getLast?.or b) (['&'] ++ join ['&'] (d :: cells)) =
          some ⟨some '&', join ['&'] (d :: cells), []⟩ := by
        rw [List.singleton_append, cellSeparator_at?, if_pos ⟨hend, rfl⟩]
      have hlater := ih (by simp) (fun e he => hcells e (by simp [he])) (b := some '&') (by simp)
      have hjoin : join ['&'] (c :: d :: cells) = c ++ ('&' :: join ['&'] (d :: cells)) := by
        simp [join]
      rw [hjoin, slicedFrom_skips opens_cellSeparator.consumes hskips, ← List.singleton_append,
        slicedFrom_hit opens_cellSeparator.consumes (by simp) hsep rfl]
      simp only [Sliced.prepend, Sliced.gaps, List.append_nil]
      exact congrArg (c :: ·) hlater

/-- The cells of a row are trimmed, whether the row is trimmed before or not. -/
theorem rowCells_text (r : TableRow) : rowCells r.text.trim = r.cells.map Text.trim := by
  have hedges : ∀ b : Option Char, (∀ c ∈ b, isBlank c = true) → cellSeparator.EdgesAgree b none := by
    intro b hb
    refine ⟨fun after => ?_, trivial⟩
    have hne : b ≠ some '\\' := fun heq => absurd (hb '\\' heq) (by decide)
    exact (bne_iff_ne.2 hne).trans rfl
  have hgaps := gaps_join r.nonempty r.plain (b := none) (by simp)
  obtain ⟨l, first, more, hwhole, hl, hsame⟩ := trims_cellSeparator.exists_split_trim hedges r.text
  rw [show r.text = join ['&'] r.cells from rfl, hgaps] at hwhole
  have htrim : ∀ {x y : Text}, (∃ t, y = x ++ t ∧ ∀ c ∈ t, isBlank c = true) → x.trim = y.trim := by
    rintro x _ ⟨t, rfl, ht⟩
    exact (trim_blanks (l := []) (by simp) ht).symm
  have hmap : (cellSeparator.split r.text.trim).map Text.trim = (first :: more).map Text.trim := by
    generalize first :: more = parts at hsame
    generalize cellSeparator.split r.text.trim = cells at hsame
    induction hsame with
    | nil => rfl
    | cons hxy _ ih => rw [List.map_cons, List.map_cons, htrim hxy, ih]
  have hfirst : Text.trim (l ++ first) = Text.trim first := by
    have hblanks := trim_blanks (s := first) hl (t := []) (by simp)
    rwa [List.append_nil] at hblanks
  rw [rowCells, hmap, hwhole, List.map_cons, List.map_cons, hfirst]

/-! ## The whole table -/

theorem TableRow.escaping_text (r : TableRow) : Escaping r.text := escaping_join r.plain

/-- What is shown of a row does not read as a space below a break. -/
theorem TableRow.Visible.head?_trim {r : TableRow} (h : r.Visible) : r.text.trim.head? ≠ some '[' := by
  have hunspaced := h.unspaced
  rw [TableRow.text]
  cases hcells : r.cells with
  | nil => exact absurd hcells r.nonempty
  | cons c cells =>
    rw [hcells, List.head?_cons, Option.bind_some] at hunspaced
    cases cells with
    | nil => exact hunspaced
    | cons d cells =>
      have hstart : Text.trimStart (c ++ ['&'] ++ join ['&'] (d :: cells)) =
          if c.trimStart.isEmpty then '&' :: join ['&'] (d :: cells)
          else c.trimStart ++ '&' :: join ['&'] (d :: cells) := by
        rw [List.append_assoc]
        exact List.dropWhile_append
      rw [Text.head?_trim] at hunspaced ⊢
      rw [join, hstart]
      cases hfirst : c.trimStart with
      | nil => simp
      | cons e s => simpa [hfirst] using hunspaced

theorem escaping_blanks {x : Text} (h : ∀ c ∈ x, isBlank c = true) : Escaping x :=
  escaping_of_not_mem fun hmem => absurd (h '\\' hmem) (by decide)

theorem escaping_itemsLeft (items : List RuleItem) : Escaping (itemsLeft items) :=
  escaping_blanks (blank_itemsLeft items)

/-- What follows the last row shows nothing. -/
theorem TableSource.exists_ending (t : TableSource) : ∃ l parts, (∀ c ∈ l, isBlank c = true) ∧
    (∀ part ∈ parts, shownRow part = []) ∧ ∀ x, Escaping x →
      (word "\\\\").split (x ++ rulePattern.erase t.ending) = (x ++ l) :: parts := by
  have hback : rulePattern.erase (itemsText t.back) = itemsLeft t.back := by
    have hitems := erase_items t.back []
    rwa [List.append_nil, erase_nil, List.append_nil] at hitems
  cases hlast : t.last with
  | none =>
    refine ⟨itemsLeft t.back, [], blank_itemsLeft _, by simp, fun x hx => ?_⟩
    rw [ending, hlast, Option.elim_none, List.nil_append, hback]
    exact split_escaping (hx.append (escaping_itemsLeft _))
  | some b =>
    have hend : ¬ RuleFirst ('\\' :: itemsText t.back) := by
      have hitems := not_ruleFirst_items t.back (s := []) fun _ => not_ruleFirst_slash
      rwa [List.append_nil] at hitems
    let part := spacingText b.spacing ++ (itemsLeft b.after ++ itemsLeft t.back)
    have hpart : Escaping part := (escaping_spacing b.short).append
      ((escaping_itemsLeft _).append (escaping_itemsLeft _))
    refine ⟨itemsLeft b.before, [part], blank_itemsLeft _, ?_, fun x hx => ?_⟩
    · intro p hp
      rw [List.mem_singleton.1 hp]
      have hshown := shownRow_eq b.short (l := itemsLeft b.after) (x := []) (t := itemsLeft t.back)
        (blank_itemsLeft _) (blank_itemsLeft _) (by simp [Text.trim, Text.trimStart, Text.trimEnd])
      exact hshown
    · have hcut := split_break (hx.append (escaping_itemsLeft b.before)) part
      rw [split_escaping hpart, List.append_assoc] at hcut
      rw [ending, hlast, Option.elim_some, erase_break b fun _ _ => hend, hback]
      exact hcut

/-- The parts between the breaks show the rows. -/
theorem TableSource.parts_eq (t : TableSource) {breaks : List (RowBreak × TableRow)}
    (hguard : Unmistaken t.ending breaks) (hmore : ∀ b ∈ breaks, b.2.Visible) {r : TableRow}
    (hr : r.Visible) {spacing : Option Text}
    (hshort : ∀ length ∈ spacing, ∀ c ∈ length, c ∉ [']', '&', '\\']) {l : Text}
    (hl : ∀ c ∈ l, isBlank c = true) :
    (((word "\\\\").split (spacingText spacing ++ (l ++ (r.text ++
      rulePattern.erase (breaksText breaks t.ending))))).map shownRow).filter (!·.isEmpty) =
        r.text.trim :: breaks.map (·.2.text.trim) := by
  have hkept : ∀ {r : TableRow} (more : List Text), r.Visible →
      (r.text.trim :: more).filter (!·.isEmpty) = r.text.trim :: more.filter (!·.isEmpty) := by
    intro r more hr
    refine List.filter_cons_of_pos ?_
    simp [trim_isEmpty, hr.shown]
  have hfront : ∀ {spacing : Option Text} {l : Text} {r : TableRow},
      (∀ length ∈ spacing, ∀ c ∈ length, c ∉ [']', '&', '\\']) → (∀ c ∈ l, isBlank c = true) →
        Escaping (spacingText spacing ++ (l ++ r.text)) := fun hshort hl =>
    (escaping_spacing hshort).append ((escaping_blanks hl).append (TableRow.escaping_text _))
  induction breaks generalizing r spacing l with
  | nil =>
    obtain ⟨l', parts, hl', hparts, hsplit⟩ := t.exists_ending
    have hall := hsplit _ (hfront (r := r) hshort hl)
    have hshown := shownRow_eq hshort hl hl' hr.head?_trim
    have hnone : (parts.map shownRow).filter (!·.isEmpty) = [] := by
      refine List.filter_eq_nil_iff.2 fun p hp => ?_
      obtain ⟨part, hpart, rfl⟩ := List.mem_map.1 hp
      simp [hparts part hpart]
    simp only [List.append_assoc] at hall
    rw [breaksText, List.foldr_nil, hall, List.map_cons, hshown, hkept _ hr, hnone]
    rfl
  | cons row breaks ih =>
    obtain ⟨b, r'⟩ := row
    obtain ⟨hfirst, hlater⟩ := hguard
    have herase : rulePattern.erase (breaksText ((b, r') :: breaks) t.ending) =
        itemsLeft b.before ++ ("\\\\".toList ++ (spacingText b.spacing ++ (itemsLeft b.after ++
          (r'.text ++ rulePattern.erase (breaksText breaks t.ending))))) := by
      have hbreak := erase_break b hfirst
      rw [erase_escaping r'.escaping_text] at hbreak
      exact hbreak
    have hcut := split_break ((hfront (r := r) hshort hl).append (escaping_itemsLeft b.before))
      (spacingText b.spacing ++ (itemsLeft b.after ++
          (r'.text ++ rulePattern.erase (breaksText breaks t.ending))))
    have hshown := shownRow_eq hshort hl (blank_itemsLeft b.before) hr.head?_trim
    have hnext := ih hlater (fun b hb => hmore b (by simp [hb])) (hmore (b, r') (by simp)) b.short
      (blank_itemsLeft b.after)
    simp only [List.append_assoc] at hcut hshown
    rw [herase, hcut, List.map_cons, hshown, hkept _ hr, hnext]
    rfl

/-- The rows of a source are its rows, trimmed. -/
theorem TableSource.tableRows_text (t : TableSource) (hguard : Unmistaken t.ending t.more)
    (hrows : ∀ r ∈ t.rows, r.Visible) : tableRows t.text = t.rows.map (·.text.trim) := by
  have hnone : ∀ length ∈ (none : Option Text), ∀ c ∈ length, c ∉ [']', '&', '\\'] := by simp
  have hmore : ∀ b ∈ t.more, b.2.Visible := fun b hb =>
    hrows b.2 (List.mem_cons_of_mem _ (List.mem_map_of_mem hb))
  have hparts := t.parts_eq hguard hmore (hrows t.first (by simp [rows])) hnone (blank_itemsLeft t.front)
  rw [tableRows_eq, text, erase_items, erase_escaping t.first.escaping_text]
  simpa [rows, spacingText, Function.comp_def] using hparts

/-- A row as it is shown. -/
def TableRow.html (tag style : String) (r : TableRow) : Text :=
  Html.element "tr" [] (r.cells.flatMap fun cell => Html.styled tag style cell.trim)

/-- A table as it is shown: the first row has the heads of the columns. -/
def TableSource.html (t : TableSource) (caption : Text) : Text :=
  Html.styled "div" Style.tableFrame (Html.styled "table" Style.table
    (caption ++ Html.element "tbody" [] (t.first.html "th" Style.headCell ++
      t.more.flatMap fun row => row.2.html "td" Style.cell)))

/-- A source is shown row by row, with all cells of each row in their order, if no row directly behind
a break starts with the name of a line. -/
theorem tableHtml_source (t : TableSource) (hrows : ∀ r ∈ t.rows, r.Visible)
    (hguard : TableSource.Unmistaken t.ending t.more) (caption : Text) :
    tableHtml t.text caption = t.html caption := by
  have hrow : ∀ tag style (r : TableRow), rowHtml tag style r.text.trim = r.html tag style := by
    intro tag style r
    rw [rowHtml, rowCells_text, TableRow.html, List.flatMap_map]
  rw [tableHtml, t.tableRows_text hguard hrows, TableSource.rows, List.map_cons, rowsHtml, hrow,
    List.map_map, List.flatMap_map, TableSource.html]
  simp only [Function.comp, hrow]

/-- Lines around the rows, a space below a break and an escaped ampersand in front of it. -/
theorem tableHtml_source_lines : ∃ t : TableSource,
    t.text = "\\hline a & b\\&\\\\[1ex]\\cline\x7b1-2\x7d c&\\\\\\bottomrule".toList ∧
      tableHtml t.text [] = t.html [] := by
  let first : TableRow := ⟨["a ".toList, " b\\&".toList], by simp, by
    simp only [List.mem_cons, List.not_mem_nil, or_false, forall_eq_or_imp, forall_eq]
    exact ⟨isCell_of_not_mem (by decide) (by decide),
      .char (by decide) (.char (by decide) (.ampersand .nil))⟩⟩
  let second : TableRow := ⟨["c".toList, []], by simp, by
    simp only [List.mem_cons, List.not_mem_nil, or_false, forall_eq_or_imp, forall_eq]
    exact ⟨isCell_of_not_mem (by decide) (by decide), .nil⟩⟩
  let spaced : RowBreak := ⟨[], some "1ex".toList,
    [.rule (.cline "1-2".toList (by decide) (by decide)), .blank ' ' (by decide)], by simp⟩
  let final : RowBreak := ⟨[], none, [.rule .bottomrule], by simp⟩
  let t : TableSource := ⟨[.rule .hline, .blank ' ' (by decide)], first, [(spaced, second)], some final, []⟩
  have hrows : ∀ r ∈ t.rows, r.Visible := by
    simp only [t, TableSource.rows, List.map_cons, List.map_nil, List.mem_cons, List.not_mem_nil, or_false,
      forall_eq_or_imp, forall_eq]
    exact ⟨⟨by decide, by decide⟩, ⟨by decide, by decide⟩⟩
  exact ⟨t, rfl, tableHtml_source t hrows ⟨fun h => absurd h (by simp [spaced]), trivial⟩ []⟩

/-- Directly behind a break, a row that starts with the name of a line loses it, and the row in front
goes on. -/
theorem row_behind_break_read_as_line : ∃ t : TableSource,
    t.text = "a\\\\hline b".toList ∧ (∀ r ∈ t.rows, r.Visible) ∧
      tableRows t.text = ["a\\ b".toList] ∧ tableHtml t.text [] ≠ t.html [] := by
  let first : TableRow := ⟨["a".toList], by simp, by
    simpa using isCell_of_not_mem (s := "a".toList) (by decide) (by decide)⟩
  let second : TableRow := ⟨["hline b".toList], by simp, by
    simpa using isCell_of_not_mem (s := "hline b".toList) (by decide) (by decide)⟩
  let t : TableSource := ⟨[], first, [(⟨[], none, [], by simp⟩, second)], none, []⟩
  refine ⟨t, rfl, ?_, by decide +kernel, by decide +kernel⟩
  simp only [t, TableSource.rows, List.map_cons, List.map_nil, List.mem_cons, List.not_mem_nil, or_false,
    forall_eq_or_imp, forall_eq]
  exact ⟨⟨by decide, by decide⟩, ⟨by decide, by decide⟩⟩

end LatexPreview
