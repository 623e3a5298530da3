import Mathlib
import LatexPreview.Convert.Paragraphs
import LatexPreview.Proofs.Pattern.Trim
import LatexPreview.Proofs.Text.Lines

/-!
# Blank lines

Paragraphs are found by a pattern for blank lines, which goes from the end of a line over all
white space to the last end of a line in it. Here they are described by lines: they are the groups
of lines between blank ones.

* `lineGroups` are these groups, and `Text.join` puts a group together again
* `at?_blankLine`: where the pattern stops
* `partsFrom` are the parts that the pattern leaves, while a text is read line by line
* `partsFrom_lines`: they are the groups of lines
-/

namespace LatexPreview

open Pattern Text

/-! ## Trimmed parts -/

/-- Parts of a text as they are shown: without blanks at their ends, and not if they are blank. -/
def shownParts (parts : List Text) : List Text := (parts.map Text.trim).filter (!·.isEmpty)

section ShownParts

variable {x y t : Text} {parts more : List Text}

theorem shownParts_append (parts more : List Text) :
    shownParts (parts ++ more) = shownParts parts ++ shownParts more := by
  simp [shownParts]

theorem shownParts_cons (x : Text) (parts : List Text) :
    shownParts (x :: parts) = shownParts [x] ++ shownParts parts :=
  shownParts_append [x] parts

theorem shownParts_congr (h : x.trim = y.trim) : shownParts [x] = shownParts [y] := by
  simp [shownParts, h]

theorem shownParts_blank (h : ∀ c ∈ x, isBlank c = true) : shownParts [x] = [] := by
  have hempty : x.trim.isEmpty = true := by
    rw [trim_isEmpty, allBlank, List.all_eq_true]
    exact h
  simp [shownParts, hempty]

theorem shownParts_blank_append (h : ∀ c ∈ x, isBlank c = true) (y : Text) :
    shownParts [x ++ y] = shownParts [y] := by
  have htrim := trim_blanks (s := y) h (t := []) (by simp)
  rw [List.append_nil] at htrim
  exact shownParts_congr htrim

theorem shownParts_append_blank (h : ∀ c ∈ t, isBlank c = true) (x : Text) :
    shownParts [x ++ t] = shownParts [x] :=
  shownParts_congr (trim_blanks (l := []) (by simp) h)

end ShownParts

/-! ## The end of blank lines -/

/-- What stands behind the last end of a line in the white space at the front of a text. -/
def behindBreak? : Text → Option Text
  | [] => none
  | c :: s =>
    if isBlank c then (behindBreak? s).or (if c = '\n' then some s else none) else none

section Break

variable {l s r : Text}

theorem behindBreak?_of_not_mem (h : '\n' ∉ s) : behindBreak? s = none := by
  induction s with
  | nil => rfl
  | cons c s ih =>
    have hc : c ≠ '\n' := fun hc => h (by simp [hc])
    simp [behindBreak?, ih fun hs => h (by simp [hs]), hc]

/-- The break is behind the first line, if this is blank, or behind blank lines that follow. -/
theorem behindBreak?_line (h : '\n' ∉ l) (s : Text) :
    behindBreak? (l ++ '\n' :: s) =
      if l.allBlank then some ((behindBreak? s).getD s) else none := by
  induction l with
  | nil =>
    have hblank : isBlank '\n' = true := by decide
    cases hs : behindBreak? s <;> simp [behindBreak?, hblank, hs, allBlank]
  | cons c l ih =>
    have hc : c ≠ '\n' := fun hc => h (by simp [hc])
    rw [List.cons_append, behindBreak?, ih fun hl => h (by simp [hl])]
    cases hblank : isBlank c <;> simp [allBlank, hblank, hc]

/-- From any white space the pattern goes to the last end of a line in it. -/
theorem greedily_blank {n : Nat} {c : Cursor} (hn : c.rest.length ≤ n) :
    (greedily ((one isBlank).run) n c fun t => (one (· == '\n')).run t some).map (·.rest) =
      behindBreak? c.rest := by
  induction n generalizing c with
  | zero =>
    have hnil : c.rest = [] := List.length_eq_zero_iff.1 (Nat.le_zero.1 hn)
    simp [greedily, run, hnil, behindBreak?]
  | succ n ih =>
    rw [greedily_succ, Option.map_or]
    cases hrest : c.rest with
    | nil => simp [run, hrest, behindBreak?]
    | cons d s =>
      have hnext := ih (c := c.next d s) (by simpa [Cursor.next, hrest] using hn)
      have hbreak : isBlank '\n' = true := by decide
      by_cases hblank : isBlank d = true
      · by_cases hd : d = '\n'
        · subst hd
          simpa [run, hrest, behindBreak?, hbreak, Cursor.next] using
            congrArg (·.or (some s)) hnext
        · simpa [run, hrest, behindBreak?, hblank, hd, Cursor.next] using hnext
      · have hd : d ≠ '\n' := by
          rintro rfl
          exact hblank hbreak
        simp [run, hrest, behindBreak?, hblank, hd]

theorem at?_blankLine (b : Option Char) (s : Text) :
    (blankLine.at? b ('\n' :: s)).map (·.rest) = behindBreak? s := by
  have hgreedy := greedily_blank (n := s.length) (c := ⟨some '\n', s, []⟩) (Nat.le_refl _)
  exact hgreedy

theorem opens_blankLine : blankLine.Opens '\n' := ((opens_one '\n').append _).append _

theorem edgesAgree_blankLine (b b' : Option Char) : blankLine.EdgesAgree b b' :=
  ⟨⟨trivial, trivial⟩, trivial⟩

end Break

/-! ## Parts between blank lines -/

/-- The parts of a text between blank lines, as they are shown, where `x` stands in front of the
first one. -/
def partsFrom (x s : Text) : List Text :=
  shownParts ((blankLine.slicedFrom none s).prepend x).gaps

section Parts

variable {l s t x : Text}

theorem exists_gaps {β : Type} (σ : Sliced β) : ∃ first more, σ.gaps = first :: more := by
  cases σ with
  | tail rest => exact ⟨rest, [], rfl⟩
  | slice gap part later => exact ⟨gap, later.gaps, rfl⟩

theorem partsFrom_nil (x : Text) : partsFrom x [] = shownParts [x] := by
  rw [partsFrom, slicedFrom_nil opens_blankLine.consumes]
  simp [Sliced.prepend, Sliced.gaps]

/-- Within a line nothing is cut. -/
theorem partsFrom_append (h : '\n' ∉ l) (x s : Text) :
    partsFrom x (l ++ s) = partsFrom (x ++ l) s := by
  rw [partsFrom, slicedFrom_skips opens_blankLine.consumes (opens_blankLine.skips h s),
    ← Sliced.prepend_append,
    slicedFrom_congr opens_blankLine.consumes (edgesAgree_blankLine _ none), partsFrom]

/-- At the end of a line the text is not cut if there is no break behind it. -/
theorem partsFrom_skip (h : behindBreak? s = none) (x : Text) :
    partsFrom x ('\n' :: s) = partsFrom (x ++ ['\n']) s := by
  have hnone : blankLine.at? none ('\n' :: s) = none := by
    rw [← Option.map_eq_none_iff, at?_blankLine, h]
  have hskips : blankLine.Skips none ['\n'] s := ⟨hnone, trivial⟩
  rw [partsFrom, ← List.singleton_append, slicedFrom_skips opens_blankLine.consumes hskips,
    ← Sliced.prepend_append,
    slicedFrom_congr opens_blankLine.consumes (edgesAgree_blankLine _ none), partsFrom]

theorem partsFrom_break {r : Text} (h : behindBreak? s = some r) (x : Text) :
    partsFrom x ('\n' :: s) = shownParts [x] ++ partsFrom [] r := by
  have hat := at?_blankLine none s
  rw [h, Option.map_eq_some_iff] at hat
  obtain ⟨stop, hstop, rfl⟩ := hat
  have hmatches := matches_of_at? hstop
  obtain ⟨m, hm⟩ : ∃ m, '\n' :: s = m ++ stop.rest := hmatches.exists_append
  have hne : m ≠ [] := by
    rintro rfl
    exact absurd (opens_blankLine.consumes _ _ hmatches) (by simp [hm])
  rw [partsFrom, hm, slicedFrom_hit opens_blankLine.consumes hne (hm ▸ hstop) rfl,
    slicedFrom_congr opens_blankLine.consumes (edgesAgree_blankLine _ none), Sliced.prepend,
    List.append_nil, Sliced.gaps, shownParts_cons, partsFrom, Sliced.prepend_nil]

/-- Blanks in front of the first part are not shown. -/
theorem partsFrom_blank (h : ∀ c ∈ x, isBlank c = true) (s : Text) :
    partsFrom x s = partsFrom [] s := by
  obtain ⟨first, more, hgaps⟩ := exists_gaps (blankLine.slicedFrom none s)
  rw [partsFrom, partsFrom, Sliced.gaps_prepend hgaps, Sliced.gaps_prepend hgaps, shownParts_cons,
    shownParts_blank_append h, shownParts_cons ([] ++ first), List.nil_append]

/-- Nothing is shown of the blank lines in front of a break. -/
theorem partsFrom_behindBreak {r : Text} (h : behindBreak? s = some r) :
    partsFrom [] s = partsFrom [] r := by
  rcases exists_lines s with hs | ⟨l, s, rfl, hl⟩
  · exact absurd h (by simp [behindBreak?_of_not_mem hs])
  · rw [behindBreak?_line hl, Option.ite_none_right_eq_some] at h
    have hblank : ∀ c ∈ l, isBlank c = true := List.all_eq_true.1 h.1
    rw [partsFrom_append hl, List.nil_append]
    cases hbreak : behindBreak? s with
    | none =>
      rw [hbreak] at h
      obtain rfl : s = r := Option.some.inj h.2
      have hfront : ∀ c ∈ l ++ ['\n'], isBlank c = true := by
        intro c hc
        rcases List.mem_append.1 hc with hc | hc
        · exact hblank c hc
        · rw [List.mem_singleton.1 hc]
          decide
      rw [partsFrom_skip hbreak, partsFrom_blank hfront]
    | some r' =>
      rw [hbreak] at h
      obtain rfl : r' = r := Option.some.inj h.2
      rw [partsFrom_break hbreak, shownParts_blank hblank, List.nil_append]

/-- Is the first line of a text blank? -/
def startsBlank (s : Text) : Bool := allBlank (s.takeWhile (· != '\n'))

theorem startsBlank_append (h : '\n' ∉ l) (s : Text) :
    startsBlank (l ++ s) = (l.allBlank && startsBlank s) := by
  have hline : ∀ c ∈ l, (c != '\n') = true := by
    intro c hc
    have hne : c ≠ '\n' := fun heq => h (heq ▸ hc)
    simpa using hne
  rw [startsBlank, List.takeWhile_append_of_pos hline, allBlank, List.all_append]
  rfl

theorem startsBlank_line (h : '\n' ∉ l) (s : Text) :
    startsBlank (l ++ '\n' :: s) = l.allBlank := by
  rw [startsBlank_append h]
  simp [startsBlank, allBlank]

theorem startsBlank_of_not_mem (h : '\n' ∉ s) : startsBlank s = s.allBlank := by
  have happend := startsBlank_append h []
  simpa [startsBlank, allBlank] using happend

/-- A line is read: it ends a part if the next line is blank. -/
theorem partsFrom_line (h : '\n' ∉ l) (x s : Text) : partsFrom x (l ++ '\n' :: s) =
    if startsBlank s then shownParts [x ++ l] ++ partsFrom [] s
    else partsFrom (x ++ l ++ ['\n']) s := by
  rw [partsFrom_append h]
  cases hbreak : behindBreak? s with
  | some r =>
    have hblank : startsBlank s = true := by
      rcases exists_lines s with hs | ⟨l', s, rfl, hl⟩
      · exact absurd hbreak (by simp [behindBreak?_of_not_mem hs])
      · rw [behindBreak?_line hl, Option.ite_none_right_eq_some] at hbreak
        rw [startsBlank_line hl, hbreak.1]
    rw [if_pos hblank, partsFrom_break hbreak, partsFrom_behindBreak hbreak]
  | none =>
    rw [partsFrom_skip hbreak]
    split
    · rename_i hblank
      have hs : '\n' ∉ s := by
        rcases exists_lines s with hs | ⟨l', s, rfl, hl⟩
        · exact hs
        · rw [startsBlank_line hl] at hblank
          exact absurd hbreak (by simp [behindBreak?_line hl, hblank])
      rw [startsBlank_of_not_mem hs] at hblank
      have hall : ∀ c ∈ s, isBlank c = true := List.all_eq_true.1 hblank
      have hrest : ∀ c ∈ '\n' :: s, isBlank c = true := by
        intro c hc
        rcases List.mem_cons.1 hc with rfl | hc
        · decide
        · exact hall c hc
      have hnothing : partsFrom [] s = [] := by
        have hcut := partsFrom_append hs [] []
        rwa [List.append_nil, List.nil_append, partsFrom_nil, shownParts_blank hall] at hcut
      have hline := partsFrom_append hs (x ++ l ++ ['\n']) []
      rw [List.append_nil, partsFrom_nil, List.append_assoc (x ++ l), List.singleton_append,
        shownParts_append_blank hrest] at hline
      rw [hline, hnothing, List.append_nil]
    · rfl

/-! ## Blanks at the ends -/

theorem partsFrom_of_blank (h : ∀ c ∈ x, isBlank c = true) (s : Text) :
    partsFrom [] (x ++ s) = partsFrom [] s := by
  induction hn : x.length using Nat.strong_induction_on generalizing x with
  | _ n ih =>
    rcases exists_lines x with hx | ⟨l, r, rfl, hl⟩
    · rw [partsFrom_append hx, List.nil_append, partsFrom_blank h]
    · have hline : ∀ c ∈ l ++ ['\n'], isBlank c = true := fun c hc => h c (by
        rw [← List.singleton_append, ← List.append_assoc]
        exact List.mem_append_left r hc)
      have hrest : ∀ c ∈ r, isBlank c = true := fun c hc => h c (by simp [hc])
      have hless : r.length < n := by
        rw [← hn, List.length_append, List.length_cons]
        omega
      have hlater := ih r.length hless hrest rfl
      rw [List.append_assoc, List.cons_append, partsFrom_line hl, List.nil_append,
        shownParts_blank fun c hc => hline c (by simp [hc]), partsFrom_blank hline,
        List.nil_append, hlater, ite_self]

theorem partsFrom_append_of_blank (h : ∀ c ∈ t, isBlank c = true) (x s : Text) :
    partsFrom x (s ++ t) = partsFrom x s := by
  have hstarts : ∀ {u : Text}, (∀ c ∈ u, isBlank c = true) → startsBlank u = true := fun hu =>
    List.all_eq_true.2 fun c hc => hu c (List.takeWhile_subset _ hc)
  induction hn : s.length using Nat.strong_induction_on generalizing s x with
  | _ n ih =>
    rcases exists_lines s with hs | ⟨l, r, rfl, hl⟩
    · have hline := partsFrom_append hs x []
      rw [List.append_nil, partsFrom_nil] at hline
      rw [partsFrom_append hs, hline]
      rcases exists_lines t with ht | ⟨l, r, rfl, hl⟩
      · have htail := partsFrom_append ht (x ++ s) []
        rwa [List.append_nil, partsFrom_nil, shownParts_append_blank h] at htail
      · have hrest : ∀ c ∈ r, isBlank c = true := fun c hc => h c (by simp [hc])
        have hnothing := partsFrom_of_blank hrest []
        rw [List.append_nil, partsFrom_nil, shownParts_blank (by simp)] at hnothing
        rw [partsFrom_line hl, if_pos (hstarts hrest), hnothing, List.append_nil,
          shownParts_append_blank fun c hc => h c (by simp [hc])]
    · have hsame : startsBlank (r ++ t) = startsBlank r := by
        rcases exists_lines r with hr | ⟨l', r', rfl, hl'⟩
        · rw [startsBlank_append hr, hstarts h, Bool.and_true, startsBlank_of_not_mem hr]
        · rw [List.append_assoc, List.cons_append, startsBlank_line hl', startsBlank_line hl']
      have hless : r.length < n := by
        rw [← hn, List.length_append, List.length_cons]
        omega
      rw [List.append_assoc, List.cons_append, partsFrom_line hl, partsFrom_line hl, hsame,
        ih _ hless _ _ rfl, ih _ hless _ _ rfl]

/-- Trimming the text does not change what is shown. -/
theorem partsFrom_trim (s : Text) : partsFrom [] s.trim = partsFrom [] s := by
  obtain ⟨l, t, hs, hl, ht, -⟩ := exists_trim s
  have hall := partsFrom_of_blank hl (s.trim ++ t)
  rw [← hs, partsFrom_append_of_blank ht] at hall
  exact hall.symm

end Parts

/-! ## Groups of lines -/

/-- The groups of consecutive lines that are not blank. -/
def lineGroups (s : Text) : List (List Text) :=
  ((rawLines s).splitOnP Text.allBlank).filter (!·.isEmpty)

section Groups

variable {l s : Text}

theorem exists_rawLines (s : Text) :
    ∃ first more, rawLines s = first :: more ∧ startsBlank s = first.allBlank := by
  rcases exists_lines s with hs | ⟨l, r, rfl, hl⟩
  · exact ⟨s, [], rawLines_of_not_mem hs, startsBlank_of_not_mem hs⟩
  · exact ⟨l, rawLines r, rawLines_line hl r, startsBlank_line hl r⟩

theorem exists_splitOnP {α : Type} (p : α → Bool) (l : List α) :
    ∃ first more, l.splitOnP p = first :: more :=
  List.exists_cons_of_ne_nil (List.splitOnP_ne_nil p l)

theorem shownParts_join_blank (h : ∀ c ∈ l, isBlank c = true) (g : List Text) :
    shownParts [join ['\n'] (l :: g)] = shownParts [join ['\n'] g] := by
  cases g with
  | nil => rw [join, join, shownParts_blank h, shownParts_blank (by simp)]
  | cons k g =>
    have hfront : ∀ c ∈ l ++ ['\n'], isBlank c = true := by
      intro c hc
      rcases List.mem_append.1 hc with hc | hc
      · exact h c hc
      · rw [List.mem_singleton.1 hc]
        decide
    rw [join, shownParts_blank_append hfront]

theorem not_of_mem_splitOnP {α : Type} {p : α → Bool} {l g : List α} (hg : g ∈ l.splitOnP p) {a : α}
    (ha : a ∈ g) : p a = false := by
  induction l generalizing g with
  | nil =>
    obtain rfl : g = [] := by simpa using hg
    exact absurd ha (by simp)
  | cons b l ih =>
    obtain ⟨first, more, hl⟩ := exists_splitOnP p l
    rw [List.splitOnP_cons_eq_if_modifyHead, hl] at hg
    rw [hl] at ih
    cases hb : p b with
    | true =>
      rw [if_pos hb] at hg
      rcases List.mem_cons.1 hg with rfl | hg
      · exact absurd ha (by simp)
      · exact ih hg ha
    | false =>
      rw [if_neg (by simp [hb]), List.modifyHead_cons] at hg
      rcases List.mem_cons.1 hg with rfl | hg
      · rcases List.mem_cons.1 ha with rfl | ha
        · exact hb
        · exact ih (by simp) ha
      · exact ih (by simp [hg]) ha

/-- Lines that are not blank show something. -/
theorem trim_join_isEmpty {g : List Text} (h : ∀ l ∈ g, l.allBlank = false) :
    (join ['\n'] g).trim.isEmpty = g.isEmpty := by
  rw [trim_isEmpty]
  cases g with
  | nil => rfl
  | cons l g =>
    have hl := h l (by simp)
    cases g with
    | nil => exact hl
    | cons k g => simp [join, allBlank, List.all_append, show l.all isBlank = false from hl]

/-- The parts of a text: its first line stands behind `x`, and the other lines are grouped. -/
theorem partsFrom_groups {first : Text} {more g : List Text} {gs : List (List Text)}
    (hlines : rawLines s = first :: more) (hgroups : more.splitOnP Text.allBlank = g :: gs)
    (x : Text) : partsFrom x s =
      shownParts [x ++ join ['\n'] (first :: g)] ++ shownParts (gs.map (join ['\n'])) := by
  induction hn : s.length using Nat.strong_induction_on generalizing s x first more g gs with
  | _ n ih =>
    rcases exists_lines s with hs | ⟨l, r, rfl, hl⟩
    · rw [rawLines_of_not_mem hs] at hlines
      obtain ⟨rfl, rfl⟩ := List.cons.inj hlines
      obtain ⟨rfl, rfl⟩ := List.cons.inj hgroups
      have hline := partsFrom_append hs x []
      rw [List.append_nil, partsFrom_nil] at hline
      simpa [join, shownParts] using hline
    · rw [rawLines_line hl] at hlines
      obtain ⟨rfl, rfl⟩ := List.cons.inj hlines
      obtain ⟨next, rest, hnext, hblank⟩ := exists_rawLines r
      obtain ⟨g', gs', hrest⟩ := exists_splitOnP Text.allBlank rest
      have hless : r.length < n := by
        rw [← hn, List.length_append, List.length_cons]
        omega
      rw [hnext, List.splitOnP_cons_eq_if_modifyHead, hrest] at hgroups
      rw [partsFrom_line hl, hblank]
      cases hnextBlank : next.allBlank with
      | true =>
        rw [if_pos hnextBlank] at hgroups
        obtain ⟨rfl, rfl⟩ := List.cons.inj hgroups
        rw [if_pos rfl, ih _ hless hnext hrest _ rfl, List.nil_append,
          shownParts_join_blank (List.all_eq_true.1 hnextBlank), List.map_cons,
          shownParts_cons (join ['\n'] g') (gs'.map _)]
        rfl
      | false =>
        rw [if_neg (by simp [hnextBlank]), List.modifyHead_cons] at hgroups
        obtain ⟨rfl, rfl⟩ := List.cons.inj hgroups
        rw [if_neg (by simp), ih _ hless hnext hrest _ rfl]
        simp [join]

/-- The parts of a text are its groups of lines. -/
theorem partsFrom_lines (s : Text) :
    partsFrom [] s = (lineGroups s).map fun group => (join ['\n'] group).trim := by
  obtain ⟨first, more, hlines, -⟩ := exists_rawLines s
  obtain ⟨g, gs, hgroups⟩ := exists_splitOnP Text.allBlank more
  have hall : partsFrom [] s =
      shownParts (((rawLines s).splitOnP Text.allBlank).map (join ['\n'])) := by
    rw [partsFrom_groups hlines hgroups, List.nil_append, hlines,
      List.splitOnP_cons_eq_if_modifyHead, hgroups]
    cases hfirst : first.allBlank with
    | true =>
      rw [if_pos rfl, shownParts_join_blank (List.all_eq_true.1 hfirst), List.map_cons,
        List.map_cons, ← shownParts_cons]
      rfl
    | false =>
      rw [if_neg (by simp), List.modifyHead_cons, List.map_cons, shownParts_cons (join _ _) (gs.map _)]
  rw [hall, shownParts, List.map_map, List.filter_map, lineGroups]
  refine congrArg _ (List.filter_congr fun group hgroup => ?_)
  rw [Function.comp, Function.comp, trim_join_isEmpty fun l hl => not_of_mem_splitOnP hgroup hl]

end Groups

end LatexPreview
