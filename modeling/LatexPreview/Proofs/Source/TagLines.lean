import Mathlib
import LatexPreview.Proofs.Source.MathLines
import LatexPreview.Proofs.Source.TagReading

/-!
# Lines of tags

In a document of the grammar the commands that begin and end environments stand in lines of their
own, and the commands of math mode in lines of math.

* `Line.clash`: a word that goes together with none of the names in a line
* `leads_anyOf`: what the patterns of named commands begin with
* `lineWise_envTagPattern`: the tags of a document are its lines of tags
* `Content.wellNested`: the tags of a content fit together
-/

namespace LatexPreview

open Pattern Text

/-! ## Words -/

theorem Text.Clash.symm {v w : Text} (h : Clash v w) : Clash w v := ⟨h.2, h.1⟩

/-- The names in a line go together with a word only if it is one of them. -/
theorem Line.clash {l : Line} {w : Text} (hw : ∃ a v, w = a :: v ∧ a.isAlpha)
    (hheading : Clash "documentclass".toList w)
    (htag : ∀ side name, l = .tag side name → Clash side.word w)
    (hmath : ∀ kind f hf, l = .leaf (.math kind f hf) → ∀ n ∈ mathCommandWords, Clash n w)
    {n : Text} (hn : n ∈ l.names) : Clash n w := by
  obtain ⟨a, v, rfl, ha⟩ := hw
  have hsingle : ∀ c : Char, ¬ c.isAlpha → Clash [c] (a :: v) := by
    intro c hc
    refine clash_of_head ?_ [] v
    rintro rfl
    exact hc ha
  cases l with
  | heading =>
    rw [List.mem_singleton.1 hn]
    simpa using hheading.append (braced "article".toList) []
  | openBrace | closeBrace => exact absurd hn (by simp [names])
  | tag side name =>
    rw [List.mem_singleton.1 hn]
    simpa using (htag side name rfl).append (braced name.text) []
  | leaf l =>
    cases l with
    | prose t ht => exact absurd hn (by simp [names])
    | symbol c hc =>
      simp only [names, List.mem_cons, List.not_mem_nil, or_false] at hn hc
      rcases hn with rfl | rfl
      · rcases hc with rfl | rfl | rfl | rfl <;> exact hsingle _ (by decide)
      · exact hsingle _ (by decide)
    | math kind f hf =>
      rcases List.mem_append.1 hn with hn | hn
      · cases kind <;> simp only [SpanKind.names, List.mem_cons, List.not_mem_nil, or_false] at hn
        · rcases hn with rfl | rfl <;> exact hsingle _ (by decide)
        · rcases hn with rfl | rfl <;> exact hsingle _ (by decide)
      · exact hmath kind f hf rfl n hn

/-- No command of math mode goes together with those around environments. -/
theorem clash_word (side : TagSide) {n : Text} (hn : n ∈ mathCommandWords) :
    Clash n side.word ∧ Clash "documentclass".toList n := by
  have hall : mathCommandWords.all (fun n => decide (Clash n (TagSide.word .opening)) &&
      (decide (Clash n (TagSide.word .closing)) &&
        decide (Clash "documentclass".toList n))) := by
    decide
  have hmem := List.all_eq_true.1 hall n hn
  simp only [Bool.and_eq_true, decide_eq_true_eq] at hmem
  cases side
  · exact ⟨hmem.1, hmem.2.2⟩
  · exact ⟨hmem.2.1, hmem.2.2⟩

theorem TagSide.exists_cons (side : TagSide) :
    ∃ a v, side.word = a :: v ∧ a.isAlpha := by
  cases side
  · exact ⟨'b', "egin".toList, rfl, by decide⟩
  · exact ⟨'e', "nd".toList, rfl, by decide⟩

/-- The commands around environments stand in their own lines. -/
theorem Line.avoids_word {l : Line} (side : TagSide) (h : ∀ name, l ≠ .tag side name) {s : Text}
    (hs : AtLineEnd s) : Avoids ('\\' :: side.word) l.text s := by
  obtain ⟨a, v, hword, ha⟩ := side.exists_cons
  refine (l.commands hs).avoids (by simp [hword]) fun n hn => l.clash ⟨a, v, hword, ha⟩ ?_ ?_ ?_ hn
  · cases side <;> decide
  · rintro side' name rfl
    cases side <;> cases side'
    · exact absurd rfl (h name)
    · decide
    · decide
    · exact absurd rfl (h name)
  · exact fun _ _ _ _ n hn => (clash_word side hn).1

/-! ## Patterns of named commands -/

theorem leads_anyOf {words : List Text} (hwords : words ≠ []) :
    (anyOf (words.map lit)).Leads words := by
  induction words with
  | nil => exact absurd rfl hwords
  | cons w words ih =>
    cases words with
    | nil =>
      have honly := leads_lit w []
      rwa [List.append_nil] at honly
    | cons v words =>
      have hfirst := leads_lit w []
      rw [List.append_nil] at hfirst
      exact (hfirst.mono (by simp)).alt ((ih (by simp)).mono (by simp +contextual))

/-- A backslash and one of some names. -/
theorem leads_named (words : List Text) (hwords : words ≠ []) (label : String) :
    (one (· == '\\') ++ capture label (anyOf (words.map lit))).Leads
      (words.map ('\\' :: ·)) := by
  rintro s t ⟨m, hslash, u, hname, rfl⟩
  obtain ⟨w, hw, x, hx⟩ := leads_anyOf hwords _ _ hname
  refine ⟨'\\' :: w, List.mem_map_of_mem hw, x, ?_⟩
  rw [matches_one_eq hslash, hx]
  rfl

theorem leads_envTagPattern :
    envTagPattern.Leads [('\\' :: TagSide.opening.word), ('\\' :: TagSide.closing.word)] :=
  ((((leads_named [TagSide.opening.word, TagSide.closing.word] (by simp) "side").append
    _).append _).append _).append _

theorem leads_mathCommand : mathCommand.Leads (mathCommandWords.map ('\\' :: ·)) := by
  have hnames : mathCommandNames.map word = mathCommandWords.map lit := by
    simp [mathCommandWords, word, Function.comp_def]
  have hleads := leads_named mathCommandWords (by simp [mathCommandWords, mathCommandNames]) "name"
  rw [← hnames] at hleads
  exact hleads.append _

/-! ## Tags -/

/-- Is the line a tag? -/
def Line.isTag : Line → Bool
  | tag .. => true
  | _ => false

theorem Line.exists_of_isTag {l : Line} (h : l.isTag = true) : ∃ side name, l = .tag side name := by
  cases l with
  | tag side name => exact ⟨side, name, rfl⟩
  | heading | leaf | openBrace | closeBrace => exact absurd h (by simp [isTag])

/-- What reads like a tag at a line of tags is the tag of that line. -/
theorem tag_eq (side : TagSide) {name : EnvName} {n s r : Text} (hn : '}' ∉ n)
    (h : (Line.tag side name).text ++ s = '\\' :: side.word ++ braced n ++ r) :
    name.text = n ∧ s = r := by
  have hbraced : name.text ++ '}' :: s = n ++ '}' :: r := by simpa [Line.text, braced] using h
  exact eq_of_append_cons_eq (name.not_mem (by decide)) hn hbraced

/-- A tag begins at the line of that tag only. -/
theorem Line.avoids_tag {l : Line} (side : TagSide) {n : Text} (hn : '}' ∉ n)
    (h : ∀ name, l = .tag side name → name.text ≠ n) {s : Text} (hs : AtLineEnd s) :
    Avoids ('\\' :: side.word ++ braced n) l.text s := by
  by_cases htag : ∃ name, l = .tag side name
  · obtain ⟨name, rfl⟩ := htag
    refine ⟨fun ⟨r, hr⟩ => ?_, avoids_of_not_mem (side.not_mem name)⟩
    exact h name rfl (tag_eq side hn hr.symm).1
  · exact (avoids_word side (fun name hl => htag ⟨name, hl⟩) hs).mono _

/-- A tag in its own line is found. -/
theorem at?_envTagPattern (side : TagSide) (name : EnvName) (b : Option Char) (s : Text) :
    ∃ stop, envTagPattern.at? b ((Line.tag side name).text ++ s) = some stop ∧ stop.rest = s ∧
      stop.get? "side" = some side.word ∧ stop.get? "name" = some name.text := by
  have hspells : EnvTag.Spells ⟨side, name.text, 0⟩ [] :=
    ⟨by simp, name.nonempty, name.not_mem (by decide)⟩
  have hspelled : (Line.tag side name).text = EnvTag.spelled ⟨side, name.text, 0⟩ [] := by
    simp [Line.text, EnvTag.spelled]
  rw [hspelled]
  exact at?_spelled hspells b s

theorem lineWise_envTagPattern : LineWise envTagPattern (fun _ => True) Line.isTag := by
  refine ⟨opens_envTagPattern.consumes, opens_envTagPattern.skipsLineEnd (by decide),
    ⟨trivial, rfl⟩, fun l b s _ hl hs => ?_, fun l s _ hl hs => ?_⟩
  · have hno : ∀ side name, l ≠ .tag side name := by
      rintro side name rfl
      exact absurd hl (by simp [Line.isTag])
    refine leads_envTagPattern.skips fun w hw => ?_
    simp only [List.mem_cons, List.not_mem_nil, or_false] at hw
    rcases hw with rfl | rfl
    · exact Line.avoids_word _ (hno .opening) hs
    · exact Line.avoids_word _ (hno .closing) hs
  · obtain ⟨side, name, rfl⟩ := Line.exists_of_isTag hl
    obtain ⟨stop, hstop, hrest, -⟩ := at?_envTagPattern side name (some '\n') s
    exact ⟨stop, hstop, hrest⟩

/-! ## Nesting -/

/-- The tag is that of the line. -/
def EnvTag.WrittenIn (t : EnvTag) (l : Line) : Prop :=
  ∃ name, l = .tag t.side name ∧ t.name = name.text

/-- The tags of a document are its lines of tags. -/
theorem forall₂_envTags (ls : List Line) :
    List.Forall₂ EnvTag.WrittenIn (envTags (withHeading ls)) (ls.filter Line.isTag) := by
  have hread : ∀ (hits : List Hit) (ms : List Line) (n : Nat), (∀ m ∈ ms, m.isTag = true) →
      List.Forall₂ (fun h m => ∃ s, envTagPattern.at? (some '\n') (m.text ++ s) = some h.stop ∧
        h.stop.rest = s) hits ms →
      List.Forall₂ EnvTag.WrittenIn (envTagsFrom n hits) ms := by
    intro hits ms n htags h
    induction h generalizing n with
    | nil => exact .nil
    | @cons h m hits ms hfirst _ ih =>
      refine .cons ?_ (ih _ fun m hm => htags m (by simp [hm]))
      obtain ⟨side, name, rfl⟩ := Line.exists_of_isTag (htags m (by simp))
      obtain ⟨s, hstop, -⟩ := hfirst
      obtain ⟨stop, hstop', -, hside, hname⟩ := at?_envTagPattern side name (some '\n') s
      obtain rfl : h.stop = stop := Option.some.inj (hstop.symm.trans hstop')
      refine ⟨name, ?_, by simp [Hit.get, hname]⟩
      simp only [Hit.get, hside]
      cases side <;> rfl
  exact hread _ _ 0 (fun m hm => (List.mem_filter.1 hm).2)
    (lineWise_envTagPattern.forall₂_hits fun _ _ => trivial)

/-- The tags of a content fit together. -/
theorem Content.wellNested (content : Content) {tags : List EnvTag}
    (h : List.Forall₂ EnvTag.WrittenIn tags (content.lines.filter Line.isTag)) :
    WellNested tags := by
  have hsplit : ∀ {tags : List EnvTag} (ls ms : List Line),
      List.Forall₂ EnvTag.WrittenIn tags (ls ++ ms) → ∃ s t, tags = s ++ t ∧
        List.Forall₂ EnvTag.WrittenIn s ls ∧ List.Forall₂ EnvTag.WrittenIn t ms := by
    intro tags ls ms h
    exact ⟨_, _, (List.take_append_drop ls.length tags).symm, List.forall₂_take_append _ _ _ h,
      List.forall₂_drop_append _ _ _ h⟩
  induction content generalizing tags with
  | nil =>
    obtain rfl := List.forall₂_nil_right_iff.1 h
    exact .nil
  | leaf l more ih => exact ih (by simpa [lines, Line.isTag] using h)
  | group inner more ihinner ihmore =>
    obtain ⟨s, t, rfl, hs, ht⟩ := hsplit (inner.lines.filter Line.isTag)
      (more.lines.filter Line.isTag) (by simpa [lines, Line.isTag] using h)
    exact (ihinner hs).append (ihmore ht)
  | env name inner more ihinner ihmore =>
    have htags : List.Forall₂ EnvTag.WrittenIn tags (.tag .opening name ::
        (inner.lines.filter Line.isTag ++ .tag .closing name :: more.lines.filter Line.isTag)) := by
      simpa [lines, List.filter_cons, Line.isTag] using h
    obtain ⟨o, later, ⟨nameO, hopen, hnameO⟩, hlater, rfl⟩ := List.forall₂_cons_right_iff.1 htags
    obtain ⟨s, behind, rfl, hs, hbehind⟩ := hsplit _ _ hlater
    obtain ⟨c, t, ⟨nameC, hclose, hnameC⟩, ht, rfl⟩ := List.forall₂_cons_right_iff.1 hbehind
    obtain ⟨hsideO, rfl⟩ := Line.tag.inj hopen
    obtain ⟨hsideC, rfl⟩ := Line.tag.inj hclose
    exact .wrap hsideO.symm hsideC.symm (hnameO.trans hnameC.symm) (ihinner hs) (ihmore ht)

/-- The tags of a document fit together. -/
theorem envProblems_document (content : Content) : envProblems (document content) = [] := by
  have hnested : WellNested (envTags (document content)) := by
    rw [document_eq]
    exact content.wrapped.wellNested (forall₂_envTags _)
  have hread := pairTags_append hnested [] []
  rwa [List.append_nil] at hread

end LatexPreview
