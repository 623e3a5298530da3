import Mathlib
import LatexPreview.Proofs.Cover.Signs
import LatexPreview.Proofs.Source.Balance
import LatexPreview.Proofs.Source.TagReading

/-!
# What is found in a document with a cover page

A cover page closes what it opens: the scan of braces leaves it at the depth it met it at, and its
tags fit together.  As every part of it starts with a backslash, the scan of what stands in front of
it goes on as before, and if the tag that begins the document is read as a tag, so does the reader
of tags.  So a document with a page is found to have the errors of the document itself.

* `scan_front`: what a scan of braces makes of the front of a text does not depend on the rest
* `depth_congr`: nor does its depth on what it remembers, unless this is a backslash
* `Markup.scans`, `Markup.tagsFit`: what the scan and the reader of tags make of a page
* `Document.checkBraces_withCover`, `Document.messages_envProblems`: the checks of a document with
  a page
* `errors_check`: which checks find errors
* `errors_injectCoverPage`: the errors are the same, in the same order
-/

namespace LatexPreview

open Pattern Text

/-! ## Braces -/

section Scan

variable {x : Text} {d e n : Nat}

/-- A scan that remembers anything. -/
def Anything (_ : Memory) : Prop := True

theorem Scans.mono {P P' Q : Memory → Prop} (h : Scans P Q x d e) (hP : ∀ m, P' m → P m) :
    Scans P' Q x d e := fun m n s hm => h m n s (hP m hm)

/-- A command is gone over whatever stands in front of it. -/
theorem scans_name {c : Char} {v : Text} (hv : ∀ e ∈ c :: v, e ∉ ['\\', '{', '}']) (d : Nat) :
    Scans Anything Clear ('\\' :: c :: v) d d := by
  have hc := hv c (by simp)
  simp only [List.mem_cons, List.not_mem_nil, or_false, not_or] at hc
  have hstart : Scans Anything Clear ['\\', c] d d := by
    intro m n s _
    refine ⟨(some '\\', some c), by simpa [Clear] using hc.1, ?_⟩
    exact (scanBracesFrom_other d n _ (by decide) (by decide)).trans
      (scanBracesFrom_other d (n + 1) s hc.2.1 hc.2.2)
  exact hstart.append (scans_plain (fun e he => hv e (by simp [he])) d)

/-- A scan of the front of a text stops there, or goes on with the rest. -/
theorem scan_front (x : Text) (m : Memory) (d n : Nat) :
    (∃ p, ∀ s, scanBracesFrom m.1 m.2 d n (x ++ s) = .stray p) ∨
      ∃ (m' : Memory) (e : Nat), ∀ s, scanBracesFrom m.1 m.2 d n (x ++ s) =
        scanBracesFrom m'.1 m'.2 e (n + x.length) s := by
  induction x generalizing m d n with
  | nil => exact .inr ⟨m, d, fun _ => rfl⟩
  | cons c x ih =>
    have hgo : ∀ e, (∀ s, scanBracesFrom m.1 m.2 d n (c :: x ++ s) =
        scanBracesFrom m.2 (some c) e (n + 1) (x ++ s)) →
        (∃ p, ∀ s, scanBracesFrom m.1 m.2 d n (c :: x ++ s) = .stray p) ∨
          ∃ (m' : Memory) (e : Nat), ∀ s, scanBracesFrom m.1 m.2 d n (c :: x ++ s) =
            scanBracesFrom m'.1 m'.2 e (n + (c :: x).length) s := by
      intro e hstep
      have hlength : n + 1 + x.length = n + (c :: x).length := by rw [List.length_cons]; omega
      rcases ih (m.2, some c) e (n + 1) with ⟨p, hp⟩ | ⟨m', e', hm'⟩
      · exact .inl ⟨p, fun s => (hstep s).trans (hp s)⟩
      · exact .inr ⟨m', e', fun s => by rw [hstep s, hm' s, hlength]⟩
    cases hescaped : isEscaped m.1 m.2 with
    | true => exact hgo d fun s => scanBracesFrom_escaped d n (x ++ s) hescaped c
    | false =>
      by_cases hopen : c = '{'
      · subst hopen
        exact hgo (d + 1) fun s => scanBracesFrom_open d n (x ++ s) hescaped
      by_cases hclose : c = '}'
      · subst hclose
        cases d with
        | zero => exact .inl ⟨n, fun s => by simp [scanBracesFrom, hescaped]⟩
        | succ d => exact hgo d fun s => scanBracesFrom_close d n (x ++ s) hescaped
      · exact hgo d fun s => scanBracesFrom_other d n (x ++ s) hopen hclose

/-- The depth does not tell positions, nor what is remembered, unless this is a backslash. -/
theorem depth_congr {m m' : Memory} (h : Clear m) (h' : Clear m') (d n n' : Nat) (s : Text) :
    (scanBracesFrom m.1 m.2 d n s).depth = (scanBracesFrom m'.1 m'.2 d n' s).depth := by
  -- Both scans take the next character for escaped or both do not, and so with the one behind it.
  have hsame : ∀ {m m' : Memory} (d n n' : Nat), isEscaped m.1 m.2 = isEscaped m'.1 m'.2 →
      (m.2 = some '\\' ↔ m'.2 = some '\\') →
      (scanBracesFrom m.1 m.2 d n s).depth = (scanBracesFrom m'.1 m'.2 d n' s).depth := by
    induction s with
    | nil => exact fun _ _ _ _ _ => rfl
    | cons c s ih =>
      intro m m' d n n' hescaped hslash
      have hnext : isEscaped m.2 (some c) = isEscaped m'.2 (some c) := by
        have hne : (m.2 != some '\\') = (m'.2 != some '\\') := by
          rw [Bool.eq_iff_iff, bne_iff_ne, bne_iff_ne]
          exact not_congr hslash
        rw [isEscaped, isEscaped, hne]
      have hlater : ∀ e, (scanBracesFrom m.2 (some c) e (n + 1) s).depth =
          (scanBracesFrom m'.2 (some c) e (n' + 1) s).depth := fun e =>
        @ih (m.2, some c) (m'.2, some c) e (n + 1) (n' + 1) hnext Iff.rfl
      simp only [scanBracesFrom, hescaped]
      split
      · exact hlater d
      split
      · exact hlater (d + 1)
      split
      · cases d with
        | zero => rfl
        | succ d => exact hlater d
      · exact hlater d
  exact hsame d n n' (h.calm.trans h'.calm.symm) (iff_of_false h h')

end Scan

/-- What is reported about braces depends on the depth alone. -/
theorem checkBraces_congr {s t : Text} (h : (scanBraces s).depth = (scanBraces t).depth) :
    checkBraces s = checkBraces t := by
  rw [checkBraces, checkBraces]
  cases hs : scanBraces s <;> cases ht : scanBraces t <;>
    simp only [hs, ht, BraceScan.depth] at h ⊢
  · rename_i a b
    obtain rfl : a = b := by omega
    rfl
  · omega
  · omega

theorem Measure.plain (w : Measure) : ∀ c ∈ w.1, c ∉ ['\\', '{', '}'] := by
  intro c hc hmem
  simp only [List.mem_cons, List.not_mem_nil, or_false] at hmem
  rcases hmem with rfl | rfl | rfl
  · exact w.not_mem (by decide) (by decide) hc
  · exact w.not_mem (by decide) (by decide) hc
  · exact w.not_mem (by decide) (by decide) hc

theorem PageSetting.scans (x : PageSetting) (d : Nat) : Scans Anything Clear x.text d d := by
  have hmeasure : ∀ w : Measure, Scans Clear Clear (braced w.1) d d :=
    fun w => (scans_plain w.plain _).braced
  cases x with
  | package name =>
    exact (scans_name (c := 'u') (v := "sepackage".toList) (by simp) d).append (hmeasure name)
  | space size =>
    exact (scans_name (c := 'v') (v := "space".toList) (by simp) d).append (hmeasure size)
  | stretch factor =>
    have hname : Scans Clear Clear (braced "\\arraystretch".toList) d d :=
      ((scans_name (c := 'a') (v := "rraystretch".toList) (by simp) _).mono
        fun _ _ => True.intro).braced
    exact ((scans_name (c := 'r') (v := "enewcommand".toList) (by simp) d).append hname).append
      (hmeasure factor)
  | newPage => exact scans_name (c := 'n') (v := "ewpage".toList) (by simp) d

theorem scans_openingTag (d : Nat) : Scans Anything Clear openingTag d d := by
  have hname : Scans Clear Clear (braced "document".toList) d d := (scans_plain (by simp) _).braced
  exact (scans_name (c := 'b') (v := "egin".toList) (by simp) d).append hname

/-- Lines that load packages are gone over whatever stands in front of them. -/
theorem scans_opening (names : List Measure) (d : Nat) :
    Scans Anything Clear (packageLines names ++ openingTag) d d := by
  induction names with
  | nil => exact scans_openingTag d
  | cons name names ih =>
    have hline : Scans Anything Clear ((PageSetting.package name).text ++ ['\n']) d d :=
      ((PageSetting.package name).scans d).append (scans_plain (by simp) d)
    rw [packageLines_cons, List.append_assoc]
    exact hline.append (ih.mono fun _ _ => True.intro)

/-- Known names are words without braces. -/
theorem plain_of_known {name : Text} (h : name ∈ markupCommands ++ markupEnvironments) :
    name ≠ [] ∧ ∀ e ∈ name, e ∉ ['\\', '{', '}'] := by
  have hall : ∀ n ∈ markupCommands ++ markupEnvironments, n ≠ [] ∧ '\\' ∉ n ∧ '{' ∉ n ∧ '}' ∉ n := by
    decide
  obtain ⟨hne, hslash, hopen, hclose⟩ := hall name h
  refine ⟨hne, fun e he hmem => ?_⟩
  simp only [List.mem_cons, List.not_mem_nil, or_false] at hmem
  rcases hmem with rfl | rfl | rfl
  · exact hslash he
  · exact hopen he
  · exact hclose he

theorem eq_of_mem_rowEnds {spaced : Bool} {c : Char} (h : c ∈ rowEnds spaced) :
    c = ' ' ∨ c = '\n' ∨ c = '[' := by
  cases spaced
  · rcases List.mem_cons.1 h with rfl | h
    · exact .inl rfl
    · exact .inr (.inl (List.mem_singleton.1 h))
  · simpa [rowEnds] using h

/-- A page is left at the depth it is met at. -/
theorem Markup.scans {spaced : Bool} (m : Markup spaced) (d : Nat) :
    Scans Clear Clear m.text d d := by
  induction m generalizing d with
  | nil => exact scans_nil Clear d
  | char c hc more ih =>
    have hplain : c ∉ ['\\', '{', '}'] := fun hmem => hc (by simp at hmem ⊢; tauto)
    exact (scans_char hplain d).of_clear.append (ih d)
  | symbol c hc more ih =>
    have hslash : c ≠ '\\' := by
      rintro rfl
      exact absurd hc (by decide)
    exact (scans_escaped (by simpa [Clear] using hslash) d).append (ih d)
  | command name hname more ih =>
    obtain ⟨hne, hplain⟩ := plain_of_known (List.mem_append_left _ hname)
    obtain ⟨c, v, rfl⟩ := List.exists_cons_of_ne_nil hne
    exact (scans_command hplain d).append (ih d)
  | rowEnd c hc more ih =>
    have hplain : c ∉ ['\\', '{', '}'] := by
      rcases eq_of_mem_rowEnds hc with rfl | rfl | rfl <;> decide
    have hend : Scans Clear Calm ['\\', '\\'] d d := scans_escaped (by simp [Calm, isEscaped]) d
    exact (hend.append (scans_char hplain d)).append (ih d)
  | group inner more ihinner ihmore => exact (ihinner (d + 1)).braced.append (ihmore d)
  | env name hname inner more ihinner ihmore =>
    have hbraced : Scans Clear Clear (LatexPreview.braced name) d d :=
      (scans_plain (plain_of_known (List.mem_append_right _ hname)).2 _).braced
    have hbegin : Scans Clear Clear (beginTag name) d d :=
      (scans_command (c := 'b') (v := "egin".toList) (by simp) d).append hbraced
    have hend : Scans Clear Clear (endTag name) d d :=
      (scans_command (c := 'e') (v := "nd".toList) (by simp) d).append hbraced
    exact ((hbegin.append (ihinner d)).append hend).append (ihmore d)
  | setting x more ih =>
    have hline : Scans Clear Clear ['\n'] d d := scans_plain (by simp) d
    exact ((x.scans d).mono fun _ _ => True.intro).append (hline.append (ih d))

/-- The same braces are left over. -/
theorem Document.checkBraces_withCover (d : Document) (c : Cover) :
    checkBraces (d.withCover c) = checkBraces d.text := by
  refine checkBraces_congr ?_
  rw [scanBraces, scanBraces, withCover, text]
  rcases scan_front d.front (none, none) 0 0 with ⟨p, hp⟩ | ⟨m, e, hm⟩
  · rw [hp, hp]
  obtain ⟨m₁, hclear₁, hscan₁⟩ := ((scans_opening c.packages e).append (c.page.scans e)) m
    (0 + d.front.length) d.rest True.intro
  obtain ⟨m₂, hclear₂, hscan₂⟩ := scans_openingTag e m (0 + d.front.length) d.rest True.intro
  rw [hm, hm, hscan₂, ← List.append_assoc, ← List.append_assoc, hscan₁]
  exact depth_congr hclear₁ hclear₂ e _ _ d.rest

/-! ## Environments -/

/-- The tag that begins a document. -/
def documentTag : EnvTag := ⟨.opening, "document".toList, 0⟩

theorem documentTag_spells : documentTag.Spells [] := ⟨by simp, by decide, by decide⟩

theorem documentTag_spelled : documentTag.spelled [] = openingTag := by decide

/-- The names of commands in a page that stand in no tag. -/
def untagged : List Text := escapables.map ([·]) ++ markupCommands

/-- No tag starts at such a command. -/
theorem avoids_tags {name : Text} (h : name ∈ untagged) (side : TagSide) (s : Text) :
    Avoids ('\\' :: side.word) ('\\' :: name) s := by
  have hall : untagged.all fun n => decide ('\\' ∉ n) && (decide (Clash n (TagSide.word .opening)) &&
      decide (Clash n (TagSide.word .closing))) := by
    decide
  have hmem := List.all_eq_true.1 hall name h
  simp only [Bool.and_eq_true, decide_eq_true_eq] at hmem
  have hcommands : Commands [name] ('\\' :: name) s := commands_word (by simp) hmem.1
  refine hcommands.avoids (by cases side <;> decide) fun n hn => ?_
  rw [List.mem_singleton.1 hn]
  cases side
  · exact hmem.2.1
  · exact hmem.2.2

theorem PageSetting.avoids_tags (x : PageSetting) (side : TagSide) (s : Text) :
    Avoids ('\\' :: side.word) (x.text ++ ['\n']) s := by
  have hclash : ∀ n ∈ settingNames, Clash n side.word := by cases side <;> decide
  refine avoids_append.2 ⟨x.commands.avoids (by cases side <;> decide) hclash, ?_⟩
  exact avoids_of_not_mem (by decide)

/-- No tags stand in lines that load packages. -/
theorem tagsFrom_packageLines (names : List Measure) {n : Nat} {s : Text} {tags : List EnvTag}
    (h : TagsFrom (n + (packageLines names).length) s tags) :
    TagsFrom n (packageLines names ++ s) tags := by
  refine TagsFrom.over (fun side => ?_) h
  clear h
  induction names with
  | nil => exact True.intro
  | cons name names ih =>
    rw [packageLines_cons]
    exact avoids_append.2 ⟨(PageSetting.package name).avoids_tags side _, ih⟩

/-- The tags of a text fit together, and the reader goes on behind it. -/
def TagsFit (x : Text) : Prop :=
  ∀ n, ∃ inner, WellNested inner ∧ ∀ s tags, TagsFrom (n + x.length) s tags →
    TagsFrom n (x ++ s) (inner ++ tags)

theorem tagsFit_of_avoids {x : Text}
    (h : ∀ (side : TagSide) s, Avoids ('\\' :: side.word) x s) : TagsFit x :=
  fun _ => ⟨[], .nil, fun s _ hs => TagsFrom.over (fun side => h side s) hs⟩

theorem TagsFit.append {x y : Text} (hx : TagsFit x) (hy : TagsFit y) : TagsFit (x ++ y) := by
  intro n
  obtain ⟨inner, hinner, hfirst⟩ := hx n
  obtain ⟨inner', hinner', hsecond⟩ := hy (n + x.length)
  refine ⟨inner ++ inner', hinner.append hinner', fun s tags hs => ?_⟩
  rw [List.append_assoc, List.append_assoc]
  refine hfirst _ _ (hsecond _ _ ?_)
  rwa [Nat.add_assoc, ← List.length_append]

theorem tagsFit_char {c : Char} (h : c ≠ '\\') : TagsFit [c] :=
  tagsFit_of_avoids fun _ _ => avoids_of_not_mem (by simpa using h.symm)

/-- An environment fits if what stands in it does. -/
theorem TagsFit.env {x name : Text} (h : TagsFit x) (hne : name ≠ []) (hclosed : '}' ∉ name) :
    TagsFit (beginTag name ++ x ++ endTag name) := by
  intro n
  have hspells : ∀ side, EnvTag.Spells ⟨side, name, 0⟩ [] := fun side => ⟨by simp, hne, hclosed⟩
  have hbegin : EnvTag.spelled ⟨.opening, name, 0⟩ [] = beginTag name := by
    simp [EnvTag.spelled, TagSide.word, beginTag]
  have hend : EnvTag.spelled ⟨.closing, name, 0⟩ [] = endTag name := by
    simp [EnvTag.spelled, TagSide.word, endTag]
  obtain ⟨inner, hinner, hread⟩ := h (n + (beginTag name).length)
  refine ⟨_, .wrap (o := ⟨.opening, name, n⟩)
    (c := ⟨.closing, name, n + (beginTag name).length + x.length⟩) rfl rfl rfl hinner .nil,
    fun s tags hs => ?_⟩
  have hclosing : TagsFrom (n + (beginTag name).length + x.length) (endTag name ++ s)
      (⟨.closing, name, n + (beginTag name).length + x.length⟩ :: tags) := by
    rw [← hend]
    refine .tag_at (hspells .closing) ?_
    rw [hend]
    simpa [Nat.add_assoc] using hs
  have hopening : TagsFrom n (beginTag name ++ (x ++ (endTag name ++ s)))
      (⟨.opening, name, n⟩ :: (inner ++
        ⟨.closing, name, n + (beginTag name).length + x.length⟩ :: tags)) := by
    rw [← hbegin]
    refine .tag_at (hspells .opening) ?_
    rw [hbegin]
    exact hread _ _ hclosing
  simpa using hopening

/-- The tags of a page fit together. -/
theorem Markup.tagsFit {spaced : Bool} (m : Markup spaced) : TagsFit m.text := by
  induction m with
  | nil => exact fun _ => ⟨[], .nil, fun _ _ hs => hs⟩
  | char c hc more ih =>
    have hslash : c ≠ '\\' := fun h => hc (by simp [h])
    exact (tagsFit_char hslash).append ih
  | symbol c hc more ih =>
    have hname : [c] ∈ untagged := List.mem_append_left _ (List.mem_map_of_mem hc)
    exact (tagsFit_of_avoids (avoids_tags hname)).append ih
  | command name hname more ih =>
    exact (tagsFit_of_avoids (avoids_tags (List.mem_append_right _ hname))).append ih
  | rowEnd c hc more ih =>
    have hend : TagsFit ['\\', '\\', c] := by
      refine tagsFit_of_avoids fun side s => ?_
      rcases eq_of_mem_rowEnds hc with rfl | rfl | rfl <;> cases side <;>
        simp [Avoids, TagSide.word]
    exact hend.append ih
  | group inner more ihinner ihmore =>
    have hopen : TagsFit ['{'] := tagsFit_char (by decide)
    have hclose : TagsFit ['}'] := tagsFit_char (by decide)
    exact ((hopen.append ihinner).append hclose).append ihmore
  | env name hname inner more ihinner ihmore =>
    obtain ⟨hne, hplain⟩ := plain_of_known (List.mem_append_right _ hname)
    exact (ihinner.env hne fun hmem => hplain _ hmem (by simp)).append ihmore
  | setting x more ih =>
    have hmore : TagsFit (x.text ++ ['\n'] ++ more.text) :=
      (tagsFit_of_avoids x.avoids_tags).append ih
    simpa [text] using hmore

/-- A document whose first opening tag is read as a tag. -/
def Document.Read (d : Document) : Prop := d.front.length ∈ (envTags d.text).map (·.position)

/-- The same is reported about the tags. -/
theorem Document.messages_envProblems {d : Document} (h : d.Read) (c : Cover) :
    (envProblems (d.withCover c)).map (·.message) = (envProblems d.text).map (·.message) := by
  have hmem : ∀ s, '}' ∈ openingWord ++ s := fun s => List.mem_append_left _ (by decide)
  have hread : 0 + d.front.length ∈ (envTags d.text).map (·.position) := by
    rw [Nat.zero_add]
    exact h
  obtain ⟨before, behind, htags, hbehind, hother⟩ :=
    (tagsFrom_envTags d.text).exists_split (s := openingWord ++ d.rest) (hmem d.rest) hread
  -- Behind the tag the document is read as before, from another position on.
  obtain ⟨later, hlater⟩ := exists_tagsFrom (0 + d.front.length + openingTag.length) d.rest
  have htag : TagsFrom (0 + d.front.length) (openingTag ++ d.rest)
      (documentTag.at (0 + d.front.length) :: later) := by
    rw [← documentTag_spelled] at hlater ⊢
    exact .tag_at documentTag_spells hlater
  obtain rfl : behind = documentTag.at (0 + d.front.length) :: later := hbehind.unique htag
  let place := 0 + d.front.length + (packageLines c.packages).length
  obtain ⟨inner, hinner, hpage⟩ := c.page.tagsFit (place + openingTag.length)
  obtain ⟨later', hlater', halike⟩ :=
    hlater.exists_at (place + openingTag.length + c.page.text.length)
  have hcover : TagsFrom (0 + d.front.length)
      (packageLines c.packages ++ (openingTag ++ (c.page.text ++ d.rest)))
      (documentTag.at place :: (inner ++ later')) := by
    refine tagsFrom_packageLines c.packages ?_
    have hopening := hpage _ _ hlater'
    rw [← documentTag_spelled] at hopening ⊢
    exact .tag_at documentTag_spells hopening
  obtain ⟨r, hr⟩ := c.exists_packages_eq (c.page.text ++ d.rest)
  have hclosed : '}' ∈ r := by
    have hmem : '}' ∈ '\\' :: r := by
      rw [← hr]
      exact List.mem_append_right _ (List.mem_append_left _ (by decide))
    simpa using hmem
  have hall : TagsFrom 0 (d.withCover c) (before ++ documentTag.at place :: (inner ++ later')) := by
    rw [withCover, hr]
    exact hother r _ hclosed (hr ▸ hcover)
  rw [envProblems, envProblems, htags, ← hall.unique (tagsFrom_envTags _)]
  have hinsert := pairTags_insert hinner [] (before ++ [documentTag.at place]) later'
  rw [List.append_assoc, List.append_assoc] at hinsert
  calc ((pairTags [] (before ++ documentTag.at place :: (inner ++ later'))).map (·.message))
      = (pairTags [] (before ++ documentTag.at place :: later')).map (·.message) := by
        exact congrArg _ hinsert
    _ = (pairTags [] (before ++ documentTag.at (0 + d.front.length) :: later)).map (·.message) := by
        refine (messages_pairTags ?_ .nil).symm
        exact List.rel_append (EnvTag.Alike.refl_list before) (.cons ⟨rfl, rfl⟩ halike)

/-! ## Errors -/

/-- Four of the checks find errors, the others do not. -/
theorem errors_check {s : Text} (hs : s ≠ []) :
    (check s).filter (·.isError) =
      checkDeclarations s ++ checkBraces s ++ checkEnvironments s ++ checkForbidden s := by
  have hall : ∀ {findings : List Finding}, (∀ f ∈ findings, f.isError = true) →
      findings.filter (·.isError) = findings := fun h => List.filter_eq_self.2 h
  have hnone : ∀ {findings : List Finding}, (∀ f ∈ findings, ¬ f.isError = true) →
      findings.filter (·.isError) = [] := fun h => List.filter_eq_nil_iff.2 h
  have hdeclarations : (checkDeclarations s).filter (·.isError) = checkDeclarations s := by
    refine hall fun f hf => ?_
    obtain ⟨declaration, -, rfl⟩ := List.mem_map.1 hf
    rfl
  have hbraces : (checkBraces s).filter (·.isError) = checkBraces s := by
    rw [checkBraces]
    split <;> rfl
  have henvironments : (checkEnvironments s).filter (·.isError) = checkEnvironments s := by
    refine hall fun f hf => ?_
    obtain ⟨problem, -, rfl⟩ := List.mem_map.1 hf
    rfl
  have hforbidden : (checkForbidden s).filter (·.isError) = checkForbidden s := by
    rw [checkForbidden]
    split <;> rfl
  have hdollars : (checkInlineMath s).filter (·.isError) = [] := by
    rw [checkInlineMath]
    split <;> rfl
  have hdelimiters : (checkDelimiters s).filter (·.isError) = [] := by
    refine hnone fun f hf => ?_
    obtain ⟨pair, -, hf⟩ := List.mem_flatMap.1 hf
    simp only at hf
    split at hf
    · exact absurd hf (by simp)
    · rw [List.mem_singleton.1 hf]
      exact Bool.false_ne_true
  have hprose : (checkProse s).filter (·.isError) = [] := by
    rw [checkProse]
    split <;> rfl
  rw [check, if_neg (by simpa using hs)]
  simp only [checks, List.flatMap_cons, List.flatMap_nil, List.filter_append, hdeclarations,
    hbraces, henvironments, hforbidden, hdollars, hdelimiters, hprose, List.append_nil,
    List.append_assoc]

/-- A document with a page has the errors of the document, as they are worded. -/
theorem Document.errors_withCover {d : Document} (h : d.Read) (c : Cover) :
    ((check (d.withCover c)).filter (·.isError)).map Finding.message =
      ((check d.text).filter (·.isError)).map Finding.message := by
  have henvironments : (checkEnvironments (d.withCover c)).map Finding.message =
      (checkEnvironments d.text).map Finding.message := by
    rw [checkEnvironments, checkEnvironments, List.map_map, List.map_map]
    exact messages_envProblems h c
  have hnonempty : ∀ {x y : Text}, x ++ (openingTag ++ y) ≠ [] := fun heq => by
    obtain ⟨-, heq⟩ := List.append_eq_nil_iff.1 heq
    exact List.cons_ne_nil _ _ (List.append_eq_nil_iff.1 heq).1
  have hcover : d.withCover c ≠ [] := by
    rw [withCover, ← List.append_assoc]
    exact hnonempty
  rw [errors_check hcover, errors_check (s := d.text) hnonempty, d.checkDeclarations_withCover c,
    d.checkBraces_withCover c, d.checkForbidden_withCover c]
  simp only [List.map_append, henvironments]

/-- A page neither adds errors to those of a document nor hides any of them, and leaves them in
their order, if the first tag that begins the document is read as a tag. -/
theorem errors_injectCoverPage {page : CoverPage} (hpage : page.Textual) (latex : Text)
    (hread : ∀ h, documentOpening.find? latex = some h →
      h.gap.length ∈ (envTags latex).map (·.position)) :
    ∃ out, injectCoverPage latex page = .ok out ∧
      ((check out).filter (·.isError)).map Finding.message =
        ((check latex).filter (·.isError)).map Finding.message := by
  by_cases henabled : (page .enabled).isTruthy = true
  · by_cases hopening : openingTag <:+: latex
    · obtain ⟨front, rest, rfl, hfirst⟩ := exists_first hopening
      obtain ⟨names, body, hout, ⟨markup, rfl⟩, -⟩ :=
        injectCoverPage_eq hpage (fun _ => rfl) henabled hfirst
      obtain ⟨stop, hfind, -⟩ := first?_opening hfirst
      exact ⟨_, hout, Document.errors_withCover (d := ⟨front, rest, hfirst⟩) (hread _ hfind)
        ⟨names, true, markup⟩⟩
    · exact ⟨latex, injectCoverPage_of_not_infix hpage hopening, rfl⟩
  · refine ⟨latex, ?_, rfl⟩
    rw [injectCoverPage, if_neg henabled]
    rfl

/-- A document that lacks a declaration and closes an environment that it did not open keeps both
errors when a page names a department. -/
theorem errors_injectCoverPage_extraEnd :
    ∃ out, injectCoverPage
        "\\documentclass\x7ba\x7d\\begin\x7bdocument\x7d\\end\x7bb\x7d".toList
        (CoverPage.plain.write .department "\\end\x7bb\x7d".toList) = .ok out ∧
      ((check out).filter (·.isError)).map Finding.message =
        ["Missing \\end\x7bdocument\x7d.",
          "Environment mismatch: Expected \\end\x7bdocument\x7d but found \\end\x7bb\x7d.",
          "Unclosed environment: \\begin\x7bdocument\x7d."].map (·.toList) := by
  have hgap : (documentOpening.find?
      "\\documentclass\x7ba\x7d\\begin\x7bdocument\x7d\\end\x7bb\x7d".toList).map
        (·.gap.length) = some 17 := by
    decide
  obtain ⟨out, hout, herrors⟩ := errors_injectCoverPage
    (textual_plain.write (f := .department) (by decide) "\\end\x7bb\x7d".toList)
    "\\documentclass\x7ba\x7d\\begin\x7bdocument\x7d\\end\x7bb\x7d".toList (by
      intro h hfind
      rw [hfind] at hgap
      have hlength : h.gap.length = 17 := Option.some.inj hgap
      rw [hlength]
      decide)
  refine ⟨out, hout, herrors.trans ?_⟩
  decide

end LatexPreview
