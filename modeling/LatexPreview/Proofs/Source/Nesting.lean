import Mathlib
import LatexPreview.Proofs.Pattern.Shapes
import LatexPreview.Source.Environments

/-!
# Nesting of environments

The tags of a text fit together if every opening tag is closed by a later one of its name and
what stands between the two fits together as well.  The reader of tags keeps the open
environments on a stack and leaves them there when a closing tag has another name; this file
shows that what it reports is enough and, taken together, all that has to be removed.

* `WellNested` are the sequences of tags that fit together
* `envTags_spec`: the tags of a text stand in it, one behind the other
* `pairTags_append`: tags that fit together leave the stack as it was
* `pairTags_eq`: stray closing tags are reported first, then the tags that stay open
* `repaired`: without the reported tags, the inner part of the stack is closed
* `envProblems_repair`: all this for the tags of a text
-/

namespace LatexPreview

open Pattern

/-! ## Sequences that fit together -/

/-- Every opening tag is closed by a later tag of its name, and what stands between them is nested
well. -/
inductive WellNested : List EnvTag → Prop
  | nil : WellNested []
  | wrap {o c : EnvTag} {inner rest : List EnvTag} (opens : o.side = .opening)
      (closes : c.side = .closing) (name : o.name = c.name) (within : WellNested inner)
      (behind : WellNested rest) : WellNested (o :: inner ++ c :: rest)

theorem WellNested.append {s t : List EnvTag} (hs : WellNested s) (ht : WellNested t) :
    WellNested (s ++ t) := by
  induction hs with
  | nil => exact ht
  | @wrap o c inner rest ho hc hname hwithin _ _ ih =>
    rw [List.append_assoc, List.cons_append]
    exact .wrap ho hc hname hwithin ih

/-- Tags that close open environments, the innermost first, with sequences that fit together
before, between and behind them. -/
inductive Closes : List EnvTag → List EnvTag → Prop
  | none {s : List EnvTag} (nested : WellNested s) : Closes [] s
  | top {o c : EnvTag} {below s rest : List EnvTag} (nested : WellNested s)
      (opens : o.side = .opening) (closes : c.side = .closing) (name : o.name = c.name)
      (later : Closes below rest) : Closes (o :: below) (s ++ c :: rest)

theorem Closes.prepend {opened s t : List EnvTag} (hs : WellNested s) (ht : Closes opened t) :
    Closes opened (s ++ t) := by
  cases ht with
  | none hnested => exact .none (hs.append hnested)
  | top hnested ho hc hname hlater =>
    rw [← List.append_assoc]
    exact .top (hs.append hnested) ho hc hname hlater

/-- Closing no environment is fitting together. -/
theorem closes_nil {s : List EnvTag} : Closes [] s ↔ WellNested s := by
  constructor
  · intro h
    cases h with
    | none hnested => exact hnested
  · exact .none

/-- An open environment may be seen as a tag in front of those that close it. -/
theorem Closes.uncover {o : EnvTag} {below s : List EnvTag} (h : Closes (o :: below) s) :
    Closes below (o :: s) := by
  cases h with
  | @top _ c _ s rest hnested ho hc hname hlater =>
    have hpair : WellNested (o :: s ++ [c]) := .wrap ho hc hname hnested .nil
    simpa using hlater.prepend hpair

/-! ## The tags of a text -/

/-- The word in a tag. -/
def TagSide.word : TagSide → Text
  | opening => "begin".toList
  | closing => "end".toList

/-- A tag as it may be written: blanks may stand in front of the name. -/
def EnvTag.spelled (t : EnvTag) (blanks : Text) : Text :=
  '\\' :: t.side.word ++ blanks ++ braced t.name

/-- The tag stands in the text, at its position. -/
def EnvTag.StandsIn (t : EnvTag) (s : Text) : Prop :=
  ∃ front blanks rest, s = front ++ t.spelled blanks ++ rest ∧ front.length = t.position ∧
    (∀ c ∈ blanks, isBlank c = true) ∧ t.name ≠ [] ∧ '}' ∉ t.name

theorem opens_envTagPattern : envTagPattern.Opens '\\' :=
  (((((opens_one '\\').append _).append _).append _).append _).append _

/-- The word of a tag tells its side, and is kept. -/
theorem matches_tagSide {s t : Cursor}
    (h : (capture "side" (anyOf [word "begin", word "end"])).Matches s t) :
    ∃ side : TagSide, s.rest = side.word ++ t.rest ∧
      t.slots = ("side", side.word ++ t.rest, t.rest) :: s.slots := by
  have hbare : (anyOf [word "begin", word "end"]).Bare := ⟨bare_lit _, bare_lit _⟩
  obtain ⟨w, hw, hslots, m, hm, hrest⟩ := matches_capture hbare h
  have hside : ∀ side : TagSide, s.rest = side.word ++ m.rest → w = side.word := fun side hm =>
    List.append_cancel_right (hw.symm.trans (by rw [hm, hrest]))
  rcases hm with hm | hm
  · obtain rfl := hside .opening (matches_lit hm)
    exact ⟨.opening, hw, hslots⟩
  · obtain rfl := hside .closing (matches_lit hm)
    exact ⟨.closing, hw, hslots⟩

/-- The name in a tag is not empty, ends in front of the first brace, and is kept. -/
theorem matches_tagName {s t : Cursor} (h : (capture "name" (many1 (noneOf "\x7d"))).Matches s t) :
    ∃ name, s.rest = name ++ t.rest ∧ t.slots = ("name", name ++ t.rest, t.rest) :: s.slots ∧
      name ≠ [] ∧ '}' ∉ name := by
  have hbare : (many1 (noneOf "\x7d")).Bare := by simp [many1, noneOf, Bare]
  obtain ⟨name, htext, hslots, m, hm, hrest⟩ := matches_capture hbare h
  have hover : (many1 (noneOf "\x7d")).Over (· ≠ '}') := by
    refine ⟨?_, ?_⟩ <;> rintro c hc rfl <;> exact absurd hc (by decide)
  obtain ⟨name', hname', hbrace⟩ := hm.over hover
  obtain rfl : name = name' := by
    rw [hrest, htext] at hname'
    exact List.append_cancel_right hname'
  refine ⟨name, htext, hslots, ?_, fun hmem => hbrace _ hmem rfl⟩
  rintro rfl
  obtain ⟨k, ⟨c, r, hc, -, rfl⟩, hk⟩ := hm
  obtain ⟨x, hx⟩ := Matches.exists_append (p := many (noneOf "\x7d")) hk
  rw [hname'] at hc
  have hlen := congrArg List.length hx
  have hlen' := congrArg List.length hc
  simp [Cursor.next] at hlen hlen'
  omega

/-- What a match of a tag reads like, and what it captures. -/
theorem matches_envTagPattern {s t : Cursor} (hslots : s.slots = [])
    (h : envTagPattern.Matches s t) :
    ∃ side : TagSide, ∃ blanks name, s.rest =
        '\\' :: side.word ++ blanks ++ braced name ++ t.rest ∧
      (∀ c ∈ blanks, isBlank c = true) ∧ name ≠ [] ∧ '}' ∉ name ∧
      t.get? "side" = some side.word ∧ t.get? "name" = some name := by
  obtain ⟨m₅, ⟨m₄, ⟨m₃, ⟨m₂, ⟨m₁, hslash, hside⟩, hblanks⟩, hopen⟩, hname⟩, hclose⟩ := h
  obtain ⟨side, hword, hslots₂⟩ := matches_tagSide hside
  obtain ⟨blanks, hblanksText, hblank⟩ :=
    hblanks.over (P := fun c => isBlank c = true) (fun c hc => hc)
  obtain ⟨name, hnameText, hslots₅, hnonempty, hbrace⟩ := matches_tagName hname
  have hslots₁ : m₁.slots = [] := (hslash.slots_eq (show (one _).Bare from trivial)).trans hslots
  have hslots₄ : m₄.slots = m₂.slots :=
    (hopen.slots_eq (show (one _).Bare from trivial)).trans
      (hblanks.slots_eq (show (many (one isBlank)).Bare from trivial))
  have hlookup : t.slots = [("name", name ++ m₅.rest, m₅.rest),
      ("side", side.word ++ m₂.rest, m₂.rest)] := by
    rw [hclose.slots_eq (show (one _).Bare from trivial), hslots₅, hslots₄, hslots₂, hslots₁]
  refine ⟨side, blanks, name, ?_, hblank, hnonempty, hbrace, ?_, ?_⟩
  · rw [matches_one_eq hslash, hword, hblanksText, matches_one_eq hopen, hnameText,
      matches_one_eq hclose]
    simp [braced]
  · rw [Cursor.get?, hlookup]
    simp [List.lookup, Text.between_append]
  · rw [Cursor.get?, hlookup]
    simp [List.lookup, Text.between_append]

/-- The tags at the matches of a cut text stand in it, one behind the other, at the starts of the
matches. -/
theorem envTagsFrom_spec (front : Text) {s : Text} {hits : List Hit} {tail : Text}
    (hc : envTagPattern.CutsInto s hits tail) :
    (∀ t ∈ envTagsFrom front.length hits, t.StandsIn (front ++ s) ∧ front.length ≤ t.position) ∧
      ((envTagsFrom front.length hits).map (·.position)).Pairwise (· < ·) ∧
      (envTagsFrom front.length hits).map (·.position) =
        (Cut.spansFrom front.length hits).map (·.1) := by
  induction hc generalizing front with
  | tail s => simp [envTagsFrom, Cut.spansFrom]
  | @hit h hits tail hf _ ih =>
    obtain ⟨b, hb⟩ := hf
    obtain ⟨side, blanks, name, hrest, hblank, hnonempty, hbrace, hside, hname⟩ :=
      matches_envTagPattern rfl hb
    have hmatched : h.matched = '\\' :: side.word ++ blanks ++ braced name :=
      List.append_cancel_right hrest
    have hpositive : 0 < h.matched.length := by simp [hmatched]
    have hlength : (front ++ h.gap ++ h.matched).length =
        front.length + h.gap.length + h.matched.length := by simp [Nat.add_assoc]
    obtain ⟨hstand, hsorted, hspans⟩ := ih (front ++ h.gap ++ h.matched)
    rw [hlength] at hstand hsorted hspans
    have hgetSide : h.get "side" = side.word := by rw [Hit.get, hside]; rfl
    have hgetName : h.get "name" = name := by rw [Hit.get, hname]; rfl
    refine ⟨?_, ?_, ?_⟩
    · intro t ht
      rcases List.mem_cons.1 ht with rfl | ht
      · refine ⟨⟨front ++ h.gap, blanks, h.stop.rest, ?_, by simp, hblank, ?_, ?_⟩, by simp⟩
        · have hsides : (if h.get "side" = "begin".toList then TagSide.opening else .closing) =
              side := by
            rw [hgetSide]
            cases side <;> decide
          rw [EnvTag.spelled, hsides, hgetName, ← hmatched]
          simp
        · simpa [hgetName] using hnonempty
        · simpa [hgetName] using hbrace
      · obtain ⟨hin, hle⟩ := hstand t ht
        exact ⟨by simpa using hin, by omega⟩
    · rw [envTagsFrom, List.map_cons, List.pairwise_cons]
      refine ⟨fun n hn => ?_, hsorted⟩
      obtain ⟨t, ht, rfl⟩ := List.mem_map.1 hn
      have hle := (hstand t ht).2
      simp only
      omega
    · rw [envTagsFrom, Cut.spansFrom, List.map_cons, List.map_cons, hspans]

theorem envTags_spec (s : Text) :
    (∀ t ∈ envTags s, t.StandsIn s) ∧ ((envTags s).map (·.position)).Pairwise (· < ·) ∧
      (envTags s).map (·.position) = (envTagPattern.spans s).map (·.1) := by
  obtain ⟨hstand, hsorted, hspans⟩ := envTagsFrom_spec [] (envTagPattern.cut_cutsInto s)
  exact ⟨fun t ht => (hstand t ht).1, hsorted, hspans⟩

/-! ## Reading tags -/

section Step

variable {t top : EnvTag} (opened below tags : List EnvTag)

theorem pairTags_opening (ht : t.side = .opening) :
    pairTags opened (t :: tags) = pairTags (t :: opened) tags := by
  simp [pairTags, ht]

theorem pairTags_extraEnd (ht : t.side = .closing) :
    pairTags [] (t :: tags) = .extraEnd t.name t.position :: pairTags [] tags := by
  simp [pairTags, ht]

theorem pairTags_closing (ht : t.side = .closing) (hname : top.name = t.name) :
    pairTags (top :: below) (t :: tags) = pairTags below tags := by
  simp [pairTags, ht, hname]

theorem pairTags_mismatch (ht : t.side = .closing) (hname : top.name ≠ t.name) :
    pairTags (top :: below) (t :: tags) =
      .mismatch t.name t.position top.name :: pairTags (top :: below) tags := by
  simp [pairTags, ht, hname]

end Step

/-- Tags that fit together are read without a finding, and leave the stack as it was. -/
theorem pairTags_append {s : List EnvTag} (hs : WellNested s) (opened rest : List EnvTag) :
    pairTags opened (s ++ rest) = pairTags opened rest := by
  induction hs generalizing opened rest with
  | nil => rfl
  | @wrap o c inner behind ho hc hname _ _ ihwithin ihbehind =>
    rw [List.append_assoc, List.cons_append, List.cons_append, pairTags_opening _ _ ho, ihwithin,
      pairTags_closing _ _ hc hname, ihbehind]

/-- A finding about a closing tag that does not fit. -/
def EnvProblem.Strays (p : EnvProblem) (t : EnvTag) : Prop :=
  p = .extraEnd t.name t.position ∨ ∃ expected, p = .mismatch t.name t.position expected

theorem positions_of_strays {problems : List EnvProblem} {strays : List EnvTag}
    (h : List.Forall₂ EnvProblem.Strays problems strays) :
    problems.map (·.position) = strays.map (·.position) := by
  induction h with
  | nil => rfl
  | cons hfirst _ ih =>
    rw [List.map_cons, List.map_cons, ih]
    rcases hfirst with rfl | ⟨expected, rfl⟩ <;> rfl

/-- The finding about an environment that stays open. -/
def EnvTag.leftOpen (t : EnvTag) : EnvProblem := .unclosed t.name t.position

/-- Stray closing tags are reported in their order, and behind them the tags that stay open. -/
theorem pairTags_eq (opened tags : List EnvTag) :
    ∃ (problems : List EnvProblem) (strays left : List EnvTag),
      pairTags opened tags = problems ++ left.map EnvTag.leftOpen ∧
      List.Forall₂ EnvProblem.Strays problems strays ∧
      strays.Sublist (tags.filter (·.side = .closing)) ∧
      left.Sublist (opened.reverse ++ tags.filter (·.side = .opening)) := by
  induction tags generalizing opened with
  | nil => exact ⟨[], [], opened.reverse, rfl, .nil, .refl _, by simp⟩
  | cons t tags ih =>
    cases hside : t.side with
    | opening =>
      obtain ⟨problems, strays, left, heq, hstrays, hclosing, hopening⟩ := ih (t :: opened)
      refine ⟨problems, strays, left, by rw [pairTags_opening _ _ hside, heq], hstrays, ?_, ?_⟩
      · simpa [hside] using hclosing
      · simpa [hside] using hopening
    | closing =>
      have hkeep : ∀ {left : List EnvTag}, left.Sublist (opened.reverse ++
          tags.filter (·.side = .opening)) → left.Sublist (opened.reverse ++
          (t :: tags).filter (·.side = .opening)) := by
        intro left hleft
        simpa [hside] using hleft
      cases opened with
      | nil =>
        obtain ⟨problems, strays, left, heq, hstrays, hclosing, hopening⟩ := ih []
        refine ⟨_ :: problems, t :: strays, left, ?_, .cons (.inl rfl) hstrays, ?_, hkeep hopening⟩
        · rw [pairTags_extraEnd _ hside, heq]
          rfl
        · simpa [hside] using hclosing.cons_cons t
      | cons top below =>
        by_cases hname : top.name = t.name
        · obtain ⟨problems, strays, left, heq, hstrays, hclosing, hopening⟩ := ih below
          refine ⟨problems, strays, left, ?_, hstrays, ?_, hkeep (hopening.trans ?_)⟩
          · rw [pairTags_closing _ _ hside hname, heq]
          · simpa [hside] using hclosing.cons t
          · rw [List.reverse_cons, List.append_assoc]
            exact (List.Sublist.refl _).append (List.sublist_append_right _ _)
        · obtain ⟨problems, strays, left, heq, hstrays, hclosing, hopening⟩ := ih (top :: below)
          refine ⟨_ :: problems, t :: strays, left, ?_, .cons (.inr ⟨top.name, rfl⟩) hstrays, ?_,
            hkeep hopening⟩
          · rw [pairTags_mismatch _ _ hside hname, heq]
            rfl
          · simpa [hside] using hclosing.cons_cons t

/-- Only tags that are read, or were open, are reported. -/
theorem mem_positions_pairTags {opened tags : List EnvTag} {n : Nat}
    (h : n ∈ (pairTags opened tags).map (·.position)) :
    n ∈ (opened ++ tags).map (·.position) := by
  obtain ⟨problems, strays, left, heq, hstrays, hclosing, hopening⟩ := pairTags_eq opened tags
  rw [heq, List.map_append, List.mem_append] at h
  rw [List.map_append, List.mem_append]
  rcases h with h | h
  · rw [positions_of_strays hstrays] at h
    obtain ⟨t, ht, rfl⟩ := List.mem_map.1 h
    exact .inr (List.mem_map.2 ⟨t, List.mem_of_mem_filter (hclosing.subset ht), rfl⟩)
  · rw [List.map_map] at h
    obtain ⟨t, ht, rfl⟩ := List.mem_map.1 h
    rcases List.mem_append.1 (hopening.subset ht) with ht | ht
    · exact .inl (List.mem_map.2 ⟨t, List.mem_reverse.1 ht, rfl⟩)
    · exact .inr (List.mem_map.2 ⟨t, List.mem_of_mem_filter ht, rfl⟩)

/-- The positions of what is reported. -/
def reported (opened tags : List EnvTag) : List Nat :=
  (pairTags opened tags).map (·.position)

/-- The tags without those at some positions. -/
def without (positions : List Nat) (tags : List EnvTag) : List EnvTag :=
  tags.filter (·.position ∉ positions)

/-- Without the reported tags, the tags that are read close the inner part of the stack, and the
outer part is reported. -/
def Repaired (opened tags : List EnvTag) : Prop :=
  ∃ inner outer, opened = inner ++ outer ∧ Closes inner (without (reported opened tags) tags) ∧
    ∀ t ∈ opened, t.position ∈ reported opened tags ↔ t ∈ outer

section Repair

variable {t top : EnvTag} {opened below tags : List EnvTag}

theorem repaired_nil (opened : List EnvTag) : Repaired opened [] := by
  refine ⟨[], opened, rfl, .none .nil, fun t ht => ⟨fun _ => ht, fun _ => ?_⟩⟩
  exact List.mem_map.2 ⟨_, List.mem_map.2 ⟨t, List.mem_reverse.2 ht, rfl⟩, rfl⟩

theorem ne_position_of_mem {u : EnvTag} (ht : t.position ∉ tags.map (·.position)) (hu : u ∈ tags) :
    u.position ≠ t.position :=
  fun h => ht (List.mem_map.2 ⟨u, hu, h⟩)

/-- A tag that is reported on the spot does not count among the others. -/
theorem Repaired.stray (h : Repaired opened tags)
    (ht : t.position ∉ (opened ++ tags).map (·.position))
    (hreported : reported opened (t :: tags) = t.position :: reported opened tags) :
    Repaired opened (t :: tags) := by
  obtain ⟨inner, outer, hsplit, hcloses, houter⟩ := h
  have hwithout : without (reported opened (t :: tags)) (t :: tags) =
      without (reported opened tags) tags := by
    rw [hreported, without, List.filter_cons_of_neg (by simp)]
    refine List.filter_congr fun u hu => ?_
    simp [ne_position_of_mem ht (List.mem_append_right _ hu)]
  refine ⟨inner, outer, hsplit, hwithout ▸ hcloses, fun u hu => ?_⟩
  rw [hreported, List.mem_cons, ← houter u hu]
  simp [ne_position_of_mem ht (List.mem_append_left _ hu)]

theorem Repaired.opening (h : Repaired (t :: opened) tags) (hside : t.side = .opening)
    (ht : t.position ∉ (opened ++ tags).map (·.position)) : Repaired opened (t :: tags) := by
  obtain ⟨inner, outer, hsplit, hcloses, houter⟩ := h
  rw [Repaired, reported, pairTags_opening _ _ hside, ← reported]
  cases inner with
  | nil =>
    -- The new environment stays open, and so do all others.
    obtain rfl : t :: opened = outer := hsplit
    have hmem := (houter t (by simp)).2 (by simp)
    refine ⟨[], opened, rfl, ?_, fun u hu => ?_⟩
    · rwa [without, List.filter_cons_of_neg (by simpa using hmem), ← without]
    · exact ⟨fun _ => hu, fun _ => (houter u (by simp [hu])).2 (by simp [hu])⟩
  | cons o inner =>
    obtain ⟨rfl, rfl⟩ : t = o ∧ opened = inner ++ outer := by simpa using hsplit
    have hkept : t.position ∉ reported (t :: (inner ++ outer)) tags := fun hmem =>
      ne_position_of_mem ht (by simp [(houter t (by simp)).1 hmem]) rfl
    refine ⟨inner, outer, rfl, ?_, fun u hu => houter u (List.mem_cons_of_mem _ hu)⟩
    rw [without, List.filter_cons_of_pos (by simpa using hkept), ← without]
    exact hcloses.uncover

theorem Repaired.closing (h : Repaired below tags) (hside : t.side = .closing)
    (hname : top.name = t.name) (htopSide : top.side = .opening)
    (ht : t.position ∉ (top :: below ++ tags).map (·.position))
    (htop : top.position ∉ (below ++ tags).map (·.position)) :
    Repaired (top :: below) (t :: tags) := by
  obtain ⟨inner, outer, rfl, hcloses, houter⟩ := h
  rw [Repaired, reported, pairTags_closing _ _ hside hname, ← reported]
  have hkept : t.position ∉ reported (inner ++ outer) tags := fun hmem =>
    ht (List.mem_cons_of_mem _ (mem_positions_pairTags hmem))
  have htopKept : top.position ∉ reported (inner ++ outer) tags := fun hmem =>
    htop (mem_positions_pairTags hmem)
  refine ⟨top :: inner, outer, rfl, ?_, fun u hu => ?_⟩
  · rw [without, List.filter_cons_of_pos (by simpa using hkept), ← without]
    exact .top (s := []) .nil htopSide hside hname hcloses
  · rcases List.mem_cons.1 hu with rfl | hu
    · refine ⟨fun hmem => absurd hmem htopKept, fun hmem => ?_⟩
      exact absurd rfl (ne_position_of_mem htop (by simp [hmem]))
    · exact houter u hu

end Repair

/-- Tags at different positions, read with a stack of opening ones, are repaired by taking the
reported ones out. -/
theorem repaired (opened tags : List EnvTag) (hopened : ∀ t ∈ opened, t.side = .opening)
    (hdistinct : ((opened ++ tags).map (·.position)).Nodup) : Repaired opened tags := by
  induction tags generalizing opened with
  | nil => exact repaired_nil opened
  | cons t tags ih =>
    have hlater : ((t :: (opened ++ tags)).map (·.position)).Nodup :=
      (List.perm_middle.map _).nodup_iff.1 hdistinct
    obtain ⟨ht, hrest⟩ := List.nodup_cons.1 hlater
    cases hside : t.side with
    | opening =>
      exact (ih (t :: opened) (by simpa [hside] using hopened) hlater).opening hside ht
    | closing =>
      cases opened with
      | nil =>
        refine (ih [] hopened hrest).stray ht ?_
        rw [reported, pairTags_extraEnd _ hside]
        rfl
      | cons top below =>
        by_cases hname : top.name = t.name
        · obtain ⟨htop, hbelow⟩ := List.nodup_cons.1 hrest
          exact (ih below (fun u hu => hopened u (by simp [hu])) hbelow).closing hside hname
            (hopened top (by simp)) ht htop
        · refine (ih (top :: below) hopened hrest).stray ht ?_
          rw [reported, pairTags_mismatch _ _ hside hname]
          rfl

/-- Without open environments in front of them, the tags that are left fit together. -/
theorem wellNested_without {tags : List EnvTag} (hdistinct : (tags.map (·.position)).Nodup) :
    WellNested (without (reported [] tags) tags) := by
  obtain ⟨inner, outer, hsplit, hcloses, -⟩ := repaired [] tags (by simp) hdistinct
  obtain ⟨rfl, -⟩ := List.append_eq_nil_iff.1 hsplit.symm
  exact closes_nil.1 hcloses

/-! ## The tags of a text that do not fit -/

/-- Nothing is reported if and only if the tags fit together. -/
theorem pairTags_eq_nil {tags : List EnvTag} (hdistinct : (tags.map (·.position)).Nodup) :
    pairTags [] tags = [] ↔ WellNested tags := by
  constructor
  · intro h
    have hall : without (reported [] tags) tags = tags := by
      rw [reported, h]
      exact List.filter_eq_self.2 (by simp)
    exact hall ▸ wellNested_without hdistinct
  · intro h
    have hread := pairTags_append h [] []
    rwa [List.append_nil] at hread

/-- What is reported are tags of the text, each once: first stray closing tags, then tags that
open an environment which is not closed, both from left to right.  Without these tags, the tags
of the text fit together; and nothing is reported if and only if they do so anyway. -/
theorem envProblems_repair (s : Text) :
    ((envProblems s).map (·.position)).Nodup ∧
      (∀ p ∈ envProblems s, p.position ∈ (envTagPattern.spans s).map (·.1)) ∧
      (∃ (problems : List EnvProblem) (strays left : List EnvTag),
        envProblems s = problems ++ left.map EnvTag.leftOpen ∧
        List.Forall₂ EnvProblem.Strays problems strays ∧
        (∀ t ∈ strays, t ∈ envTags s ∧ t.StandsIn s ∧ t.side = .closing) ∧
        (∀ t ∈ left, t ∈ envTags s ∧ t.StandsIn s ∧ t.side = .opening) ∧
        (problems.map (·.position)).Pairwise (· < ·) ∧
        (left.map (·.position)).Pairwise (· < ·)) ∧
      WellNested (without ((envProblems s).map (·.position)) (envTags s)) ∧
      (envProblems s = [] ↔ WellNested (envTags s)) := by
  obtain ⟨hstand, hsorted, hspans⟩ := envTags_spec s
  have hdistinct : ((envTags s).map (·.position)).Nodup := hsorted.imp ne_of_lt
  obtain ⟨problems, strays, left, heq, hstrays, hclosing, hopening⟩ := pairTags_eq [] (envTags s)
  rw [List.reverse_nil, List.nil_append] at hopening
  have hpositions : (envProblems s).map (·.position) = (strays ++ left).map (·.position) := by
    rw [envProblems, heq, List.map_append, List.map_append, positions_of_strays hstrays,
      List.map_map]
    rfl
  have hkept : ∀ {ts : List EnvTag} {side : TagSide},
      ts.Sublist ((envTags s).filter (·.side = side)) →
        (∀ t ∈ ts, t ∈ envTags s ∧ t.StandsIn s ∧ t.side = side) ∧
          (ts.map (·.position)).Pairwise (· < ·) := by
    intro ts side hts
    refine ⟨fun t ht => ?_, hsorted.sublist ((hts.trans List.filter_sublist).map _)⟩
    obtain ⟨hmem, hside⟩ := List.mem_filter.1 (hts.subset ht)
    exact ⟨hmem, hstand t hmem, of_decide_eq_true hside⟩
  refine ⟨?_, ?_, ⟨problems, strays, left, heq, hstrays, (hkept hclosing).1, (hkept hopening).1,
    ?_, (hkept hopening).2⟩, ?_, pairTags_eq_nil hdistinct⟩
  · -- The stray tags and those that stay open are disjoint parts of the tags.
    have hsides : ((envTags s).filter (·.side = .closing) ++
        (envTags s).filter (·.side = .opening)).Perm (envTags s) := by
      refine List.Perm.trans (.append_left _ (.of_eq (List.filter_congr fun t _ => ?_)))
        (List.filter_append_perm (fun t : EnvTag => decide (t.side = .closing)) (envTags s))
      cases t.side <;> rfl
    rw [hpositions]
    exact ((hclosing.append hopening).map _).nodup ((hsides.map _).nodup_iff.2 hdistinct)
  · intro p hp
    have hmem := mem_positions_pairTags (List.mem_map.2 ⟨p, hp, rfl⟩)
    rwa [List.nil_append, hspans] at hmem
  · rw [positions_of_strays hstrays]
    exact (hkept hclosing).2
  · exact wellNested_without hdistinct

end LatexPreview
