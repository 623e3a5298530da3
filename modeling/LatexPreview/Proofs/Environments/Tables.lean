import Mathlib
import LatexPreview.Proofs.Environments.Quotations
import LatexPreview.Proofs.Pattern.Arguments
import LatexPreview.Proofs.Pattern.Parts
import LatexPreview.Proofs.Tables.Rules

/-!
# Tables in trees

The stage for tables takes a table out with what is in it as it is, divided into rows and cells.  So it
is made for tables without environments.

* `tableClearing` is the stage for tables
* `formatTables_tree`: a tree has no tables with captions
* `not_tagless_tableHtml`: the first tag in a table is shown in one of its cells
* `stains_tables`: with an environment in a table, a tag is stored
-/

namespace LatexPreview

open Pattern Text

/-! ## The pattern -/

/-- What is up to the next tag that closes an environment is its body. -/
theorem run_body_closing {env : String} {x s : Text}
    (havoids : Avoids (endTag env.toList) x (endTag env.toList ++ s)) {t : Cursor} (ht : t.rest = x ++ (endTag env.toList ++ s)) : ∃ stop,
      (body.run t fun u => (closing env).run u some) = some stop ∧ stop.rest = s ∧
        stop.get? "body" = some x := by
  obtain ⟨b, rest, slots⟩ := t
  obtain rfl : rest = x ++ (endTag env.toList ++ s) := ht
  let k : Accept := fun u =>
    (closing env).run { u with slots := ("body", x ++ (endTag env.toList ++ s), u.rest) :: u.slots } some
  obtain ⟨n, hwalk⟩ := reluctantly_walks (k := k) (walks_any x (endTag env.toList ++ s)) slots
    (by
      rintro u c v rfl b
      exact run_lit_eq_none (avoids_append.1 havoids).2.1 some) le_rfl b
  have hclose : k ⟨x.getLast?.or b, endTag env.toList ++ s, slots⟩ =
      some ⟨(endTag env.toList).getLast?.or (x.getLast?.or b), s,
        ("body", x ++ (endTag env.toList ++ s), endTag env.toList ++ s) :: slots⟩ := run_lit _ _ _ _ _
  refine ⟨_, hwalk.trans (reluctantly_eq_some hclose n), rfl, ?_⟩
  simp [Cursor.get?, List.lookup, between_append]

/-- A table is found up to the first tag that closes it. -/
theorem at?_tabular {columns : Text} (hcolumns : ∀ c ∈ columns, IsPlain c) {x : Text} (s : Text)
    (havoids : Avoids (endTag "tabular".toList) x (endTag "tabular".toList ++ s)) (b : Option Char) :
    ∃ stop, tabularPattern.at? b ((Enclosure.tabular columns hcolumns).tagged x ++ s) = some stop ∧
      stop.rest = s ∧ stop.get? "body" = some x := by
  let k : Accept := fun t => body.run t fun u => (closing "tabular").run u some
  let inside : Text := braced columns ++ (x ++ (endTag "tabular".toList ++ s))
  have hplain : ∀ c ∈ columns, c ∉ ['{', '}'] := fun c hc hmem => hcolumns c hc (by
    simp only [List.mem_cons, List.not_mem_nil, or_false] at hmem ⊢
    tauto)
  have hwhole : (Enclosure.tabular columns hcolumns).tagged x ++ s =
      beginTag "tabular".toList ++ inside := by
    simp [Enclosure.tagged, Enclosure.opening, Enclosure.declaration, Enclosure.closing, Enclosure.name,
      inside]
  have hrun : tabularPattern.at? b (beginTag "tabular".toList ++ inside) =
      (longArgument "columns").run ⟨(beginTag "tabular".toList).getLast?.or b, inside, []⟩ k :=
    run_lit _ _ _ _ _
  have hbody : ∀ t, (longArgument "columns").Matches
      ⟨(beginTag "tabular".toList).getLast?.or b, inside, []⟩ t →
      ∃ stop, k t = some stop ∧ stop.rest = s ∧ stop.get? "body" = some x := fun t ht =>
    run_body_closing havoids (rest_of_longArgument ht rfl hplain)
  obtain ⟨t, ht⟩ : ∃ t, (longArgument "columns").Matches
      ⟨(beginTag "tabular".toList).getLast?.or b, inside, []⟩ t :=
    exists_matches_longArgument rfl hplain
  obtain ⟨stop, hstop, -⟩ := hbody t ht
  have hsome : (k t).isSome = true := by
    rw [hstop]
    rfl
  obtain ⟨stop', hstop'⟩ := Option.isSome_iff_exists.1
    (run_complete (steady_longArgument "columns") ht hsome)
  obtain ⟨t', ht', hk⟩ := run_sound hstop'
  obtain ⟨stop'', hstop'', hrest, hslot⟩ := hbody t' ht'
  obtain rfl : stop' = stop'' := Option.some.inj (hk.symm.trans hstop'')
  exact ⟨stop', by rw [hwhole, hrun, hstop'], hrest, hslot⟩

/-- The tags of other environments are not those of tables. -/
theorem Enclosure.refused_by_tables {e : Enclosure} (h : e.place ≠ .table) :
    tabularPattern.Refuses ('\\' :: openingName e.name) ∧
      tabularPattern.Refuses ('\\' :: closingName e.name) := by
  cases e with
  | tabular columns hcolumns => exact absurd rfl h
  | list kind => cases kind <;> decide +kernel
  | quote | quotation => decide +kernel

theorem Enclosure.exists_tabular {e : Enclosure} (h : e.place = .table) :
    ∃ columns hcolumns, e = .tabular columns hcolumns := by
  cases e with
  | tabular columns hcolumns => exact ⟨columns, hcolumns, rfl⟩
  | quote | quotation | list _ => simp [place] at h

/-- A tree has no tables with captions. -/
theorem formatTables_tree {p : EnvPlace} (t : EnvTree p) :
    formatTables t.text =
      tabularPattern.replaceM (fun h => addBlock (tableHtml (h.get "body") [])) t.text := by
  have hrefuses : ∀ n ∈ environmentNames, tablePattern.Refuses ('\\' :: n) := by decide +kernel
  have hpasses : tablePattern.Passes t.text :=
    ⟨opens_tablePattern.consumes,
      opens_tablePattern.skips_commands hrefuses (t.commands_text []) t.last_text⟩
  have hwhole : tablePattern.replaceM (fun h => wholeTable (h.get "body")) t.text = pure t.text :=
    funext fun d => hpasses.replaceM_run d
  rw [formatTables, hwhole, pure_bind]

/-! ## The stage -/

theorem passes_rules {p : EnvPlace} {t : EnvTree p} (h : t.places = []) :
    rulePattern.Passes t.text := by
  have hrefuses : ∀ n ∈ leafNames, rulePattern.Refuses ('\\' :: n) := by decide +kernel
  exact ⟨opens_rulePattern.consumes, opens_rulePattern.skips_commands hrefuses
    (t.commands_of_places_eq_nil h []) t.last_text⟩

/-- The stage for tables. -/
def tableClearing : Clearing where
  pattern := tabularPattern
  format h := addBlock (tableHtml (h.get "body") [])
  ready e _ := e.place == .table
  take _ x := addBlock (tableHtml x [])
  fit e body := e.place = .table → body.places = []
  consumes := opens_tabular.consumes
  leaf x s := rewrites_leaf opens_tabular (fun _ _ => rfl) (by decide +kernel) x s
  taken := by
    intro e body hfit hready s
    have hplace : e.place = .table := beq_iff_eq.1 hready
    have hend : Avoids e.closing body.text (e.closing ++ s) :=
      EnvTree.avoids_endTag (hfit hplace) _ _
    obtain ⟨columns, hcolumns, rfl⟩ := e.exists_tabular hplace
    refine rewrites_hit opens_tabular.consumes (by simp [Enclosure.tagged, Enclosure.opening, beginTag])
      fun b => ?_
    obtain ⟨stop, hstop, hrest, hbody⟩ := at?_tabular hcolumns s hend b
    exact ⟨stop, hstop, hrest, addBlock_of_stop (f := fun x => tableHtml x []) hbody _ _⟩
  left := by
    intro e body hfit hall hready act hact s
    obtain ⟨hopening, hclosing⟩ := e.refused_by_tables (beq_eq_false_iff_ne.1 hready)
    exact rewrites_left opens_tabular (fun _ _ => rfl) hopening hclosing hact s
  tidy := by
    intro e body hfit hready d hd
    have hplaces := hfit (beq_iff_eq.1 hready)
    exact hd.exists_addBlock enclosed_styled
      (tagless_tableHtml (tagless_text hplaces) (passes_rules hplaces))

/-! ## Tags in cells -/

/-- A tag stands in the text, and no bracket in front of it. -/
def HasTagFirst (x : Text) : Prop := ∃ a v, x = a ++ ("\\begin\x7b".toList ++ v) ∧ '[' ∉ a

theorem HasTagFirst.not_tagless {x : Text} (h : HasTagFirst x) : ¬ Tagless x := by
  obtain ⟨a, v, rfl, -⟩ := h
  exact fun htagless => htagless _ List.mem_cons_self ⟨a, v, by simp⟩

theorem HasTagFirst.trim {x : Text} (h : HasTagFirst x) : HasTagFirst x.trim := by
  obtain ⟨a, v, ha, hbracket⟩ := h
  obtain ⟨l, t, hx, hl, ht, -⟩ := exists_trim x
  have hslash : ∀ {c : Char} {u : Text}, isBlank c = true → ¬ c :: u <+: "\\begin\x7b".toList ++ v := by
    rintro c u hc ⟨r, hr⟩
    obtain ⟨rfl, -⟩ := List.cons.inj hr
    exact absurd hc (by decide)
  have hbrace : ∀ {u w : Text}, a ++ "\\begin\x7b".toList = u ++ w →
      (∀ c ∈ w, isBlank c = true) → w = [] := by
    intro u w heq hw
    have hlast : (u ++ w).getLast? = some '{' := by
      rw [← heq, List.getLast?_append]
      rfl
    rcases List.eq_nil_or_concat w with rfl | ⟨w', c, rfl⟩
    · rfl
    · rw [List.concat_eq_append, ← List.append_assoc, List.getLast?_concat] at hlast
      obtain rfl := Option.some.inj hlast
      exact absurd (hw '{' (by simp)) (by decide)
  obtain ⟨a', rfl, hrest⟩ : ∃ a', a = l ++ a' ∧ x.trim ++ t = a' ++ ("\\begin\x7b".toList ++ v) := by
    rcases List.append_eq_append_iff.1 (hx.symm.trans ha) with ⟨a', ha', hrest⟩ | ⟨w, hw, hrest⟩
    · exact ⟨a', ha', hrest⟩
    · cases w with
      | nil => exact ⟨[], by simpa using hw.symm, hrest.symm⟩
      | cons c w => exact absurd ⟨_, hrest.symm⟩ (hslash (hl c (by simp [hw])))
  have hbracket' : '[' ∉ a' := fun hmem => hbracket (List.mem_append_right _ hmem)
  rw [← List.append_assoc] at hrest
  rcases List.append_eq_append_iff.1 hrest with ⟨w, hw, hv⟩ | ⟨v', htrim, -⟩
  · have hblank : ∀ c ∈ w, isBlank c = true := fun c hc => ht c (by simp [hv, hc])
    obtain rfl := hbrace (u := l ++ x.trim) (by rw [List.append_assoc, hw, List.append_assoc]) hblank
    exact ⟨a', [], by simpa using hw.symm, hbracket'⟩
  · exact ⟨a', v', by rw [htrim, List.append_assoc], hbracket'⟩

theorem HasTagFirst.eraseFront {x : Text} (h : HasTagFirst x) :
    HasTagFirst (rowSpacing.eraseFront x) := by
  obtain ⟨a, v, rfl, hbracket⟩ := h
  have hskips := opens_rowSpacing.skips (b := none) (x := a ++ "\\begin\x7b".toList) (by simp [hbracket]) v
  have hnone : rowSpacing.at? none (a ++ ("\\begin\x7b".toList ++ v)) = none := by
    cases a with
    | nil => exact hskips.1
    | cons c a => simpa using hskips.1
  rw [Pattern.eraseFront, hnone]
  exact ⟨a, v, rfl, hbracket⟩

/-- What stands in front of the first row break belongs to the first row. -/
theorem exists_gaps_skips {b : Option Char} {x s : Text} (h : (word "\\\\").Skips b x s) :
    ∃ first more, ((word "\\\\").slicedFrom (x.getLast?.or b) s).gaps = first :: more ∧
      ((word "\\\\").slicedFrom b (x ++ s)).gaps = (x ++ first) :: more := by
  obtain ⟨first, more, hfirst⟩ := exists_gaps ((word "\\\\").slicedFrom (x.getLast?.or b) s)
  refine ⟨first, more, hfirst, ?_⟩
  rw [slicedFrom_skips opens_rowBreak.consumes h]
  exact Sliced.gaps_prepend hfirst

/-- A row with a tag has one, too, if a character is put in front of the table. -/
theorem exists_row_cons {c : Char} (hc : c ∉ ['\\', '[']) {b : Option Char} {s : Text}
    (h : ∃ x ∈ ((word "\\\\").slicedFrom (some c) s).gaps, HasTagFirst x) :
    ∃ x ∈ ((word "\\\\").slicedFrom b (c :: s)).gaps, HasTagFirst x := by
  obtain ⟨x, hx, htag⟩ := h
  have hplain : '\\' ∉ [c] := by
    intro hmem
    exact hc (by simp [(List.mem_singleton.1 hmem).symm])
  obtain ⟨first, more, hfirst, hsame⟩ := exists_gaps_skips (opens_rowBreak.skips (b := b) hplain s)
  rw [show ([c] : Text).getLast?.or b = some c from rfl] at hfirst
  rw [hfirst] at hx
  rw [show c :: s = [c] ++ s from rfl, hsame]
  rcases List.mem_cons.1 hx with rfl | hx
  · obtain ⟨a, v, rfl, hbracket⟩ := htag
    refine ⟨_, List.mem_cons_self, c :: a, v, rfl, fun hmem => ?_⟩
    rcases List.mem_cons.1 hmem with rfl | hmem
    · exact hc (by simp)
    · exact hbracket hmem
  · exact ⟨x, List.mem_cons_of_mem _ hx, htag⟩

/-- When a table is divided into rows, the first tag in it stays in one of them. -/
theorem exists_row_hasTagFirst {p : EnvPlace} (t : EnvTree p) (hp : p = .table) (h : t.places = [])
    (v : Text) (b : Option Char) :
    ∃ x ∈ ((word "\\\\").slicedFrom b (t.text ++ ("\\begin\x7b".toList ++ v))).gaps, HasTagFirst x := by
  induction t generalizing b with
  | nil =>
    have hrefuses : ∀ n ∈ ["begin\x7b".toList], (word "\\\\").Refuses ('\\' :: n) := by decide
    have hbegin : Commands ["begin\x7b".toList] "\\begin\x7b".toList v :=
      commands_word (n := "begin\x7b".toList) List.mem_cons_self (by decide)
    obtain ⟨first, more, -, hsame⟩ := exists_gaps_skips
      (opens_rowBreak.skips_commands (b := b) hrefuses hbegin (by decide))
    refine ⟨"\\begin\x7b".toList ++ first, ?_, [], first, rfl, by simp⟩
    rw [EnvTree.text, List.nil_append, hsame]
    exact List.mem_cons_self
  | leaf x more ih =>
    subst hp
    cases x with
    | char c hc =>
      refine exists_row_cons ?_ (ih rfl h (some c))
      simp only [List.mem_cons, List.not_mem_nil, or_false, not_or]
      exact ⟨(hc.ne (by simp)).symm, (hc.ne (by simp)).symm⟩
    | row c hc =>
      have hplain : c ∉ ['\\', '['] := by
        rcases List.mem_pair.1 hc with rfl | rfl <;> decide
      obtain ⟨x, hx, htag⟩ := exists_row_cons (b := some '\\') hplain (ih rfl h (some c))
      obtain ⟨stop, hstop, hrest⟩ := Option.map_eq_some_iff.1 <|
        (at?_lit "\\\\".toList b _).trans
          (dropFront?_append "\\\\".toList (c :: (more.text ++ ("\\begin\x7b".toList ++ v))))
      have hhit := slicedFrom_hit opens_rowBreak.consumes (by simp) hstop hrest
      have hwhole : EnvTree.text (.leaf (.row c hc) more) ++ ("\\begin\x7b".toList ++ v) =
          "\\\\".toList ++ c :: (more.text ++ ("\\begin\x7b".toList ++ v)) := by
        simp [EnvTree.text, EnvLeaf.text]
      refine ⟨x, ?_, htag⟩
      rw [hwhole, hhit]
      exact List.mem_cons_of_mem _ hx
  | env e body more => simp [EnvTree.places] at h

/-- When a row is divided into cells, a tag in it stays in one of them. -/
theorem exists_cell_not_tagless {x : Text} (h : ¬ Tagless x) : ∃ cell ∈ rowCells x, ¬ Tagless cell := by
  have hover : cellSeparator.Over (· = '&') := ⟨trivial, fun c hc => by simpa using hc⟩
  have hsplit : ∀ {w : Text}, w ∈ tagFronts → ∀ {s : Text} {hits : List Hit} {tail : Text},
      cellSeparator.CutsInto s hits tail → w <:+: s →
        ∃ y ∈ hits.map (·.gap) ++ [tail], w <:+: y := by
    intro w hw s hits tail hcuts hword
    have hand : w ≠ [] ∧ '&' ∉ w := by
      rcases List.mem_pair.1 hw with rfl | rfl <;> simp
    induction hcuts with
    | tail s => exact ⟨s, by simp, hword⟩
    | @hit hit hits tail found later ih =>
      obtain ⟨u, hmatched⟩ := opens_cellSeparator.found found
      have haround := infix_around (x := hit.gap) (z := hit.stop.rest) hand.1
        (show hit.matched ≠ [] by simp [hmatched]) fun c hc hmem =>
          hand.2 (hover.found found c hmem ▸ hc)
      rw [List.append_assoc, haround] at hword
      rcases hword with hword | hword
      · exact ⟨hit.gap, by simp, hword⟩
      · obtain ⟨y, hy, hword⟩ := ih hword
        exact ⟨y, List.mem_cons_of_mem _ hy, hword⟩
  simp only [Tagless, not_forall, not_not] at h
  obtain ⟨w, hw, hword⟩ := h
  obtain ⟨y, hy, hword⟩ := hsplit hw (cellSeparator.cut_cutsInto x) hword
  refine ⟨y.trim, List.mem_map_of_mem hy, tagless_trim.not.2 fun htagless => htagless w hw hword⟩

/-- The first tag in a table is shown in one of its cells. -/
theorem not_tagless_tableHtml {p : EnvPlace} (t : EnvTree p) (hp : p = .table) (h : t.places = [])
    (v : Text) : ¬ Tagless (tableHtml (t.text ++ ("\\begin\x7b".toList ++ v)) []) := by
  have hskips : rulePattern.Skips none (t.text ++ "\\begin\x7b".toList) v := by
    have hrefuses : ∀ n ∈ leafNames ++ ["begin\x7b".toList], rulePattern.Refuses ('\\' :: n) := by
      decide +kernel
    refine opens_rulePattern.skips_commands hrefuses (commands_append.2 ⟨?_, ?_⟩)
      (by simp [List.getLast?_append])
    · exact (t.commands_of_places_eq_nil h _).mono fun n hn => List.mem_append_left _ hn
    · exact commands_word (n := "begin\x7b".toList) (by simp) (by decide)
  have herase : ∃ v', rulePattern.erase (t.text ++ ("\\begin\x7b".toList ++ v)) =
      t.text ++ ("\\begin\x7b".toList ++ v') := by
    rw [erase_eq, ← List.append_assoc, slicedFrom_skips opens_rulePattern.consumes hskips,
      Sliced.outside_prepend]
    exact ⟨_, List.append_assoc _ _ _⟩
  obtain ⟨v', herase⟩ := herase
  obtain ⟨x, hx, htag⟩ := exists_row_hasTagFirst t hp h v' none
  have hrow : HasTagFirst (rowSpacing.eraseFront (Text.trim x)).trim := htag.trim.eraseFront.trim
  have hmem : (rowSpacing.eraseFront (Text.trim x)).trim ∈
      tableRows (t.text ++ ("\\begin\x7b".toList ++ v)) := by
    rw [tableRows, herase, Pattern.split, Cut.parts_eq_gaps]
    refine List.mem_filter.2 ⟨List.mem_map_of_mem hx, ?_⟩
    obtain ⟨a, v, ha, -⟩ := hrow
    simp [ha]
  obtain ⟨cell, hcell, hnot⟩ := exists_cell_not_tagless hrow.not_tagless
  exact fun htagless => hnot (tagless_tableHtml_iff.1 htagless _ hmem cell hcell)

/-- A tag is stored with a table, if there is an environment in it. -/
theorem stains_tables {p : EnvPlace} {t : EnvTree p} (h : ¬ t.All tableClearing.fit) (s : Text) :
    tableClearing.Stains t.text s := by
  refine tableClearing.stains (fun hfit hready => ?_) (fun {e} {body} hfit hready s => ?_)
    (fun {e} {body} hfit s => ?_) h s
  · exact hfit (beq_iff_eq.1 hready)
  · obtain ⟨hopening, -⟩ := e.refused_by_tables (beq_eq_false_iff_ne.1 hready)
    exact rewrites_opening opens_tabular (fun _ _ => rfl) hopening s
  · obtain ⟨hplace, hplaces⟩ := Classical.not_imp.1 hfit
    obtain ⟨front, v, r, hfront, htext, havoids⟩ := exists_end e hplaces s
    have htag := not_tagless_tableHtml front hplace hfront v
    generalize front.text ++ ("\\begin\x7b".toList ++ v) = x at htext havoids htag
    have hwhole : e.tagged body.text ++ s = e.tagged x ++ r := by
      simp only [Enclosure.tagged, List.append_assoc] at htext ⊢
      rw [htext]
    refine Clearing.stains_hit (fun _ => Drafting.growsBlocks_addBlock _)
      (by simp [Enclosure.tagged, Enclosure.opening, beginTag]) hwhole fun b => ?_
    obtain ⟨stop, hstop, hrest, hbody⟩ : ∃ stop, tabularPattern.at? b (e.tagged x ++ r) = some stop ∧
        stop.rest = r ∧ stop.get? "body" = some x := by
      obtain ⟨columns, hcolumns, he⟩ := e.exists_tabular hplace
      rw [he] at havoids ⊢
      exact at?_tabular hcolumns r havoids b
    have hformat : tableClearing.format ⟨[], e.tagged x, stop⟩ = addBlock (tableHtml x []) :=
      addBlock_of_stop (f := fun x => tableHtml x []) hbody [] (e.tagged x)
    refine ⟨stop, hstop, hrest, fun d => ⟨tableHtml x [], ?_, htag⟩⟩
    rw [hformat]
    exact List.mem_append_right _ List.mem_cons_self

end LatexPreview
