import Mathlib
import LatexPreview.Proofs.Pattern.Scan
import LatexPreview.Proofs.Source.Nesting

/-!
# Reading tags from left to right

The reader of tags goes over a text one character at a time, but for tags, which it takes as a
whole.  A tag that is opened in front of a backslash either ends there or takes up what follows, up
to the next closing brace; which of the two it is can be told from the text in front of the
backslash.  So if a tag is read at the backslash, the tags in front of it are the same whatever
stands behind it.

* `TagFront`: a text starts with a tag; `tagFront_congr`: whether it does can be told in front of
  a backslash
* `TagsFrom`: the tags of a text, character by character; `tagsFrom_envTags`: they are those that
  the reader finds
* `TagsFrom.exists_split`: the tags in front of a tag at a backslash
* `EnvTag.Alike`: tags that differ in nothing but their positions
* `messages_pairTags`, `pairTags_insert`: the positions of tags do not show in what is reported,
  nor do tags in between that fit together
-/

namespace LatexPreview

open Pattern

/-! ## Tags at the front of a text -/

/-- The side and the name of a tag, as they may be written. -/
structure EnvTag.Spells (t : EnvTag) (blanks : Text) : Prop where
  blank : ∀ c ∈ blanks, isBlank c = true
  nonempty : t.name ≠ []
  closed : '}' ∉ t.name

theorem TagSide.backslash_not_mem (side : TagSide) : '\\' ∉ side.word := by
  cases side <;> decide

/-- A tag is written in one way only. -/
theorem spelled_eq {t u : EnvTag} {blanks blanks' r s : Text} (ht : t.Spells blanks)
    (hu : u.Spells blanks') (h : t.spelled blanks ++ r = u.spelled blanks' ++ s) :
    t.side = u.side ∧ t.name = u.name ∧ blanks = blanks' ∧ r = s := by
  have hword : t.side = u.side ∧ blanks ++ '{' :: (t.name ++ '}' :: r) =
      blanks' ++ '{' :: (u.name ++ '}' :: s) := by
    cases hside : t.side <;> cases hside' : u.side <;>
      simp [EnvTag.spelled, hside, hside', TagSide.word, braced] at h ⊢ <;> exact h
  have hopen : ∀ {v : EnvTag} {b : Text}, v.Spells b → '{' ∉ b := fun hv hmem =>
    absurd (hv.blank _ hmem) (by decide)
  obtain ⟨hside, hrest⟩ := hword
  obtain ⟨hblanks, hrest⟩ := eq_of_append_cons_eq (hopen ht) (hopen hu) hrest
  obtain ⟨hname, hrest⟩ := eq_of_append_cons_eq ht.closed hu.closed hrest
  exact ⟨hside, hname, hblanks, hrest⟩

theorem steady_envTagPattern : envTagPattern.Steady :=
  ⟨⟨⟨⟨⟨trivial, steady_lit _, steady_lit _⟩, trivial, consumes_one _⟩, trivial⟩, trivial, trivial,
    consumes_one _⟩, trivial⟩

/-- A tag matches. -/
theorem exists_matches_spelled {t : EnvTag} {blanks : Text} (ht : t.Spells blanks)
    (b : Option Char) (s : Text) :
    ∃ stop, envTagPattern.Matches ⟨b, t.spelled blanks ++ s, []⟩ stop := by
  obtain ⟨c, v, hname⟩ := List.exists_cons_of_ne_nil ht.nonempty
  have hclass : ∀ e ∈ c :: v, (!"\x7d".toList.contains e) = true := by
    intro e he
    have hne : e ≠ '}' := by
      rintro rfl
      exact ht.closed (hname ▸ he)
    simpa using hne
  have htext : t.spelled blanks ++ s =
      '\\' :: (t.side.word ++ (blanks ++ ('{' :: c :: (v ++ '}' :: s)))) := by
    simp [EnvTag.spelled, braced, hname]
  obtain ⟨t₁, h₁⟩ : ∃ u, u = Cursor.next ⟨b, t.spelled blanks ++ s, []⟩ '\\'
      (t.side.word ++ (blanks ++ ('{' :: c :: (v ++ '}' :: s)))) := ⟨_, rfl⟩
  obtain ⟨t₂, h₂, hr₂⟩ := exists_matches_lit (w := t.side.word) (s := t₁)
    (r := blanks ++ ('{' :: c :: (v ++ '}' :: s))) (by rw [h₁]; rfl)
  have hside : (anyOf [word "begin", word "end"]).Matches t₁ t₂ := by
    cases hs : t.side
    · rw [hs] at h₂
      exact .inl h₂
    · rw [hs] at h₂
      exact .inr h₂
  obtain ⟨u, hu, hru⟩ : ∃ u, u = { t₂ with slots := ("side", t₁.rest, t₂.rest) :: t₂.slots } ∧
      u.rest = blanks ++ ('{' :: c :: (v ++ '}' :: s)) := ⟨_, rfl, hr₂⟩
  obtain ⟨u', hblanks, hru'⟩ := exists_matches_many ht.blank hru
  obtain ⟨t₃, h₃, hr₃⟩ := exists_matches_many (w := v) (r := '}' :: s)
    (s := (u'.next '{' (c :: (v ++ '}' :: s))).next c (v ++ '}' :: s))
    (fun e he => hclass e (by simp [he])) rfl
  have hmany : (many1 (noneOf "\x7d")).Matches (u'.next '{' (c :: (v ++ '}' :: s))) t₃ :=
    ⟨_, ⟨c, _, rfl, hclass c (by simp), rfl⟩, h₃⟩
  refine ⟨_, _, ⟨_, ⟨_, ⟨u, ⟨t₁, ⟨'\\', _, htext, rfl, h₁⟩, t₂, hside, hu⟩, hblanks⟩,
    '{', _, hru', rfl, rfl⟩, t₃, hmany, rfl⟩, '}', s, hr₃, rfl, rfl⟩

/-- A tag is found, and read as what it is. -/
theorem at?_spelled {t : EnvTag} {blanks : Text} (ht : t.Spells blanks) (b : Option Char)
    (s : Text) :
    ∃ stop, envTagPattern.at? b (t.spelled blanks ++ s) = some stop ∧ stop.rest = s ∧
      stop.get? "side" = some t.side.word ∧ stop.get? "name" = some t.name := by
  obtain ⟨found, hfound⟩ := exists_matches_spelled ht b s
  obtain ⟨stop, hstop⟩ := Option.isSome_iff_exists.1 (at?_isSome steady_envTagPattern hfound)
  obtain ⟨side, blanks', name, htext, hblank, hne, hclosed, hside, hname⟩ :=
    matches_envTagPattern rfl (matches_of_at? hstop)
  have hu : EnvTag.Spells ⟨side, name, 0⟩ blanks' := ⟨hblank, hne, hclosed⟩
  obtain ⟨hsides, hnames, -, hrest⟩ := spelled_eq ht hu htext
  exact ⟨stop, hstop, hrest.symm, by rw [hside, hsides], by rw [hname, hnames]⟩

/-- The text starts with a tag. -/
def TagFront (s : Text) : Prop :=
  ∃ t : EnvTag, ∃ blanks r, t.Spells blanks ∧ s = t.spelled blanks ++ r

theorem at?_eq_none_iff {b : Option Char} {s : Text} :
    envTagPattern.at? b s = none ↔ ¬ TagFront s := by
  constructor
  · rintro hnone ⟨t, blanks, r, ht, rfl⟩
    obtain ⟨stop, hstop, -⟩ := at?_spelled ht b r
    exact absurd (hstop.symm.trans hnone) (by simp)
  · refine fun h => Option.eq_none_iff_forall_ne_some.2 fun stop hstop => h ?_
    obtain ⟨side, blanks, name, htext, hblank, hne, hclosed, -⟩ :=
      matches_envTagPattern rfl (matches_of_at? hstop)
    exact ⟨⟨side, name, 0⟩, blanks, stop.rest, ⟨hblank, hne, hclosed⟩, htext⟩

/-- Whether a tag starts in front of a backslash does not depend on what stands behind the
backslash, as long as some brace is closed there. -/
theorem tagFront_congr {x s s' : Text} (hx : x ≠ []) (hclose : '}' ∈ s')
    (h : TagFront (x ++ '\\' :: s)) : TagFront (x ++ '\\' :: s') := by
  obtain ⟨t, blanks, r, ht, htext⟩ := h
  obtain ⟨c, x, rfl⟩ := List.exists_cons_of_ne_nil hx
  have hfront : ('\\' :: (t.side.word ++ blanks ++ ['{'])) ++ (t.name ++ '}' :: r) =
      (c :: x) ++ '\\' :: s := by
    rw [htext]
    simp [EnvTag.spelled, braced]
  rcases append_eq_append_cons hfront with ⟨a, hxa, hname⟩ | ⟨v, hv, -⟩
  · -- The name starts in front of the backslash.
    obtain ⟨name, hnamed, r', hspelled⟩ : ∃ name, (name ≠ [] ∧ '}' ∉ name) ∧ ∃ r',
        a ++ '\\' :: s' = name ++ '}' :: r' := by
      rcases append_eq_append_cons hname with ⟨a', rfl, hclosed⟩ | ⟨v, hv, -⟩
      · cases a' with
        | nil => exact absurd (List.cons.inj hclosed).1 (by decide)
        | cons d a' =>
          obtain ⟨rfl, -⟩ := List.cons.inj hclosed
          exact ⟨t.name, ⟨ht.nonempty, ht.closed⟩, a' ++ '\\' :: s', by simp⟩
      · -- The name takes up the backslash and what stands between it and the next closing brace.
        obtain ⟨u, w, rfl, hu⟩ := List.eq_append_cons_of_mem hclose
        have ha : '}' ∉ a := fun hmem => ht.closed (hv ▸ List.mem_append_left _ hmem)
        exact ⟨a ++ '\\' :: u, ⟨by simp, by simp [ha, hu]⟩, w, by simp⟩
    refine ⟨⟨t.side, name, 0⟩, blanks, r', ⟨ht.blank, hnamed.1, hnamed.2⟩, ?_⟩
    rw [hxa, List.append_assoc, hspelled]
    simp [EnvTag.spelled, braced]
  · obtain ⟨-, hv⟩ := List.cons.inj hv
    have hmem : '\\' ∈ t.side.word ++ blanks ++ ['{'] := hv ▸ (by simp)
    simp only [List.mem_append, List.mem_singleton] at hmem
    rcases hmem with (hmem | hmem) | hmem
    · exact absurd hmem t.side.backslash_not_mem
    · exact absurd (ht.blank _ hmem) (by decide)
    · exact absurd hmem (by decide)

/-! ## Character by character -/

/-- The tags of a text at a position: a tag is read as a whole, and where none starts, one character
is passed over. -/
inductive TagsFrom : Nat → Text → List EnvTag → Prop
  | nil (n : Nat) : TagsFrom n [] []
  | skip {n : Nat} {c : Char} {s : Text} {tags : List EnvTag} (none : ¬ TagFront (c :: s))
      (later : TagsFrom (n + 1) s tags) : TagsFrom n (c :: s) tags
  | tag {t : EnvTag} {blanks s : Text} {tags : List EnvTag} (spells : t.Spells blanks)
      (later : TagsFrom (t.position + (t.spelled blanks).length) s tags) :
      TagsFrom t.position (t.spelled blanks ++ s) (t :: tags)

/-- The tag at another position. -/
def EnvTag.at (t : EnvTag) (n : Nat) : EnvTag := { t with position := n }

theorem TagsFrom.tag_at {t : EnvTag} {blanks s : Text} {tags : List EnvTag} {n : Nat}
    (ht : t.Spells blanks) (h : TagsFrom (n + (t.spelled blanks).length) s tags) :
    TagsFrom n (t.spelled blanks ++ s) (t.at n :: tags) :=
  .tag (t := t.at n) ⟨ht.blank, ht.nonempty, ht.closed⟩ h

/-- Every text has its tags. -/
theorem exists_tagsFrom (n : Nat) (s : Text) : ∃ tags, TagsFrom n s tags := by
  induction hk : s.length using Nat.strong_induction_on generalizing n s with
  | _ k ih =>
    by_cases h : TagFront s
    · obtain ⟨t, blanks, r, ht, rfl⟩ := h
      obtain ⟨tags, htags⟩ := ih r.length (by simp [EnvTag.spelled] at hk; omega)
        (n + (t.spelled blanks).length) r rfl
      exact ⟨_, .tag_at ht htags⟩
    · cases s with
      | nil => exact ⟨[], .nil n⟩
      | cons c s =>
        obtain ⟨tags, htags⟩ := ih s.length (by simp at hk; omega) (n + 1) s rfl
        exact ⟨tags, .skip h htags⟩

theorem envTagsFrom_prepend (n : Nat) (x : Text) (c : Cut) :
    envTagsFrom n (c.prepend x).hits = envTagsFrom (n + x.length) c.hits := by
  obtain ⟨hits, tail⟩ := c
  cases hits with
  | nil => rfl
  | cons h hits =>
    have hposition : n + (x ++ h.gap).length = n + x.length + h.gap.length := by
      rw [List.length_append, Nat.add_assoc]
    simp only [Cut.prepend, envTagsFrom, hposition]
    rfl

/-- They are the tags that the reader finds. -/
theorem TagsFrom.eq_envTagsFrom {n : Nat} {s : Text} {tags : List EnvTag} (h : TagsFrom n s tags)
    (b : Option Char) : envTagsFrom n (envTagPattern.cutFrom b s).hits = tags := by
  induction h generalizing b with
  | nil n => rfl
  | @skip n c s tags hnone _ ih =>
    have hskips : envTagPattern.Skips b [c] s := ⟨at?_eq_none_iff.2 hnone, True.intro⟩
    rw [← List.singleton_append, cutFrom_skips opens_envTagPattern.consumes hskips,
      envTagsFrom_prepend]
    exact ih _
  | @tag t blanks s tags ht _ ih =>
    obtain ⟨stop, hstop, hrest, hside, hname⟩ := at?_spelled ht b s
    rw [cutFrom_hit opens_envTagPattern.consumes (by simp [EnvTag.spelled]) hstop hrest, envTagsFrom]
    simp only [List.length_nil, Nat.add_zero, ih]
    obtain ⟨side, name, position⟩ := t
    simp only [Hit.get, hside, hname, Option.getD_some]
    cases side <;> rfl

theorem tagsFrom_envTags (s : Text) : TagsFrom 0 s (envTags s) := by
  obtain ⟨tags, htags⟩ := exists_tagsFrom 0 s
  have heq : envTags s = tags := htags.eq_envTagsFrom none
  rwa [heq]

theorem TagsFrom.unique {n : Nat} {s : Text} {tags tags' : List EnvTag} (h : TagsFrom n s tags)
    (h' : TagsFrom n s tags') : tags = tags' :=
  (h.eq_envTagsFrom none).symm.trans (h'.eq_envTagsFrom none)

/-- Tags stand at the position of the text or behind it. -/
theorem TagsFrom.le_position {n : Nat} {s : Text} {tags : List EnvTag} (h : TagsFrom n s tags)
    {t : EnvTag} (ht : t ∈ tags) : n ≤ t.position := by
  induction h with
  | nil => exact absurd ht (by simp)
  | skip _ _ ih => exact Nat.le_of_succ_le (ih ht)
  | tag _ _ ih =>
    rcases List.mem_cons.1 ht with rfl | ht
    · exact le_rfl
    · exact le_trans (Nat.le_add_right _ _) (ih ht)

/-- A text that both words of tags avoid is passed over. -/
theorem TagsFrom.over {n : Nat} {x s : Text} {tags : List EnvTag}
    (hx : ∀ side : TagSide, Text.Avoids ('\\' :: side.word) x s)
    (h : TagsFrom (n + x.length) s tags) : TagsFrom n (x ++ s) tags := by
  induction x generalizing n with
  | nil => exact h
  | cons c x ih =>
    refine .skip ?_ (ih (fun side => (hx side).2) ?_)
    · rintro ⟨t, blanks, r, -, htext⟩
      refine (hx t.side).1 ⟨blanks ++ braced t.name ++ r, ?_⟩
      have hcons : c :: (x ++ s) = t.spelled blanks ++ r := htext
      rw [hcons]
      simp [EnvTag.spelled]
    · rwa [Nat.add_right_comm, Nat.add_assoc]

/-- If a tag is read at a backslash, those in front of it do not depend on what stands behind it,
as long as some brace is closed there. -/
theorem TagsFrom.exists_split {n : Nat} {x s : Text} {tags : List EnvTag}
    (h : TagsFrom n (x ++ '\\' :: s) tags) (hs : '}' ∈ s)
    (hread : n + x.length ∈ tags.map (·.position)) :
    ∃ front rest, tags = front ++ rest ∧ TagsFrom (n + x.length) ('\\' :: s) rest ∧
      ∀ s' rest', '}' ∈ s' → TagsFrom (n + x.length) ('\\' :: s') rest' →
        TagsFrom n (x ++ '\\' :: s') (front ++ rest') := by
  generalize htext : x ++ '\\' :: s = text at h
  induction h generalizing x with
  | nil n => exact absurd htext (by simp)
  | @skip n c text tags hnone hlater ih =>
    cases x with
    | nil =>
      have hall : TagsFrom n ('\\' :: s) tags := by
        rw [show '\\' :: s = c :: text from htext]
        exact .skip hnone hlater
      exact ⟨[], tags, rfl, hall, fun _ _ _ h' => h'⟩
    | cons d x =>
      obtain ⟨rfl, rfl⟩ := List.cons.inj htext
      have hlength : n + 1 + x.length = n + (d :: x).length := by simp; omega
      obtain ⟨front, rest, rfl, hrest, hother⟩ := ih (by rwa [hlength]) rfl
      rw [hlength] at hrest hother
      refine ⟨front, rest, rfl, hrest, fun s' rest' hs' h' => .skip ?_ (hother s' rest' hs' h')⟩
      exact fun hfront => hnone (tagFront_congr (x := d :: x) (by simp) hs hfront)
  | @tag t blanks text tags ht hlater ih =>
    by_cases hx : x = []
    · subst hx
      have hall : TagsFrom t.position ('\\' :: s) (t :: tags) := by
        rw [show '\\' :: s = t.spelled blanks ++ text from htext]
        exact .tag ht hlater
      exact ⟨[], t :: tags, rfl, hall, fun _ _ _ h' => h'⟩
    have hpos := List.length_pos_iff.2 hx
    rcases append_eq_append_cons htext.symm with ⟨y, rfl, rfl⟩ | ⟨v, hv, -⟩
    · have hlength : t.position + (t.spelled blanks).length + y.length =
          t.position + (t.spelled blanks ++ y).length := by simp; omega
      have hmem : t.position + (t.spelled blanks).length + y.length ∈ tags.map (·.position) := by
        rw [List.map_cons, List.mem_cons] at hread
        rcases hread with heq | hmem
        · omega
        · rwa [hlength]
      obtain ⟨front, rest, rfl, hrest, hother⟩ := ih hmem rfl
      rw [hlength] at hrest hother
      refine ⟨t :: front, rest, rfl, hrest, fun s' rest' hs' h' => ?_⟩
      rw [List.append_assoc]
      exact .tag ht (hother s' rest' hs' h')
    · -- No tag is read within another one.
      exfalso
      have hlong := congrArg List.length hv
      rw [List.length_append, List.length_cons] at hlong
      rw [List.map_cons, List.mem_cons] at hread
      rcases hread with heq | hmem
      · omega
      · obtain ⟨u, hu, hposition⟩ := List.mem_map.1 hmem
        have hle := hlater.le_position hu
        omega

/-! ## Positions -/

/-- Tags that differ in nothing but their positions. -/
def EnvTag.Alike (t u : EnvTag) : Prop := t.side = u.side ∧ t.name = u.name

theorem EnvTag.Alike.refl_list (tags : List EnvTag) : List.Forall₂ EnvTag.Alike tags tags :=
  List.forall₂_same.2 fun _ _ => ⟨rfl, rfl⟩

/-- A text has the same tags wherever it starts, but for their positions. -/
theorem TagsFrom.exists_at {n : Nat} {s : Text} {tags : List EnvTag} (h : TagsFrom n s tags)
    (m : Nat) : ∃ tags', TagsFrom m s tags' ∧ List.Forall₂ EnvTag.Alike tags tags' := by
  induction h generalizing m with
  | nil n => exact ⟨[], .nil m, .nil⟩
  | skip hnone _ ih =>
    obtain ⟨tags', htags, halike⟩ := ih (m + 1)
    exact ⟨tags', .skip hnone htags, halike⟩
  | @tag t blanks s tags ht _ ih =>
    obtain ⟨tags', htags, halike⟩ := ih (m + (t.spelled blanks).length)
    exact ⟨_, .tag_at ht htags, .cons ⟨rfl, rfl⟩ halike⟩

/-- What is said of tags that stay open does not tell positions. -/
theorem messages_unclosed {ts us : List EnvTag} (h : List.Forall₂ EnvTag.Alike ts us) :
    ts.map (fun t => (EnvProblem.unclosed t.name t.position).message) =
      us.map (fun t => (EnvProblem.unclosed t.name t.position).message) := by
  induction h with
  | nil => rfl
  | @cons t u ts us htop _ ih =>
    rw [List.map_cons, List.map_cons, ih]
    exact congrArg (fun n => (EnvProblem.unclosed n 0).message :: _) htop.2

/-- What is reported does not tell positions. -/
theorem messages_pairTags {tags tags' opened opened' : List EnvTag}
    (htags : List.Forall₂ EnvTag.Alike tags tags') (hopened : List.Forall₂ EnvTag.Alike opened opened') :
    (pairTags opened tags).map (·.message) = (pairTags opened' tags').map (·.message) := by
  induction htags generalizing opened opened' with
  | nil =>
    simp only [pairTags, List.map_map]
    exact messages_unclosed (List.forall₂_reverse_iff.2 hopened)
  | @cons t u tags tags' halike _ ih =>
    obtain ⟨hside, hname⟩ := halike
    cases hs : t.side with
    | opening =>
      rw [pairTags_opening _ _ hs, pairTags_opening _ _ (hside.symm.trans hs)]
      exact ih (.cons ⟨hside, hname⟩ hopened)
    | closing =>
      have hs' := hside.symm.trans hs
      cases hopened with
      | nil =>
        rw [pairTags_extraEnd _ hs, pairTags_extraEnd _ hs', List.map_cons, List.map_cons, ih .nil]
        exact congrArg (fun n => (EnvProblem.extraEnd n 0).message :: _) hname
      | @cons top top' below below' htop hbelow =>
        by_cases hfit : top.name = t.name
        · rw [pairTags_closing _ _ hs hfit, pairTags_closing _ _ hs' (by rw [← htop.2, hfit, hname])]
          exact ih hbelow
        · have hfit' : top'.name ≠ u.name := by rwa [← htop.2, ← hname]
          rw [pairTags_mismatch _ _ hs hfit, pairTags_mismatch _ _ hs' hfit', List.map_cons,
            List.map_cons, ih (.cons htop hbelow)]
          exact congrArg₂ (fun n e => (EnvProblem.mismatch n 0 e).message :: _) hname htop.2

/-- Nor does it tell whether there are tags in between that fit together. -/
theorem pairTags_insert {inner : List EnvTag} (hinner : WellNested inner)
    (opened front rest : List EnvTag) :
    pairTags opened (front ++ (inner ++ rest)) = pairTags opened (front ++ rest) := by
  induction front generalizing opened with
  | nil => exact pairTags_append hinner opened rest
  | cons t front ih =>
    cases hs : t.side with
    | opening =>
      rw [List.cons_append, List.cons_append, pairTags_opening _ _ hs, pairTags_opening _ _ hs]
      exact ih _
    | closing =>
      cases opened with
      | nil =>
        rw [List.cons_append, List.cons_append, pairTags_extraEnd _ hs, pairTags_extraEnd _ hs, ih]
      | cons top below =>
        by_cases hfit : top.name = t.name
        · rw [List.cons_append, List.cons_append, pairTags_closing _ _ hs hfit,
            pairTags_closing _ _ hs hfit]
          exact ih _
        · rw [List.cons_append, List.cons_append, pairTags_mismatch _ _ hs hfit,
            pairTags_mismatch _ _ hs hfit, ih]

end LatexPreview
