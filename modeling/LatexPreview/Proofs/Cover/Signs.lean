import Mathlib
import LatexPreview.Proofs.Cover.Splice
import LatexPreview.Proofs.Source.SoundDocuments

/-!
# What is looked for in a document with a cover page

Two of the checks look for something that starts with a backslash and holds no other one: the
declarations that every document needs, and the command for images.  What a cover page adds starts
with a backslash, and behind its backslashes stand names that are known.  So nothing that is looked
for appears or disappears with it.

* `Spares`: nothing that is looked for starts in a text that is followed by another
* `Sign`: what starts with a backslash, and can be told in front of the next one
* `Document`: a document around the tag that begins it, `Document.withCover` the same with a page
* `Document.shows_withCover`: a sign shows in both or in neither
-/

namespace LatexPreview

open Pattern Text

namespace Text

variable {P : Text → Prop} {x y s : Text}

/-- A text from which on the property holds stands in the text. -/
def Shows (P : Text → Prop) (s : Text) : Prop := ∃ r, r <:+ s ∧ P r

/-- The property holds from no place of the first text on, when the second one follows. -/
def Spares (P : Text → Prop) : Text → Text → Prop
  | [], _ => True
  | c :: x, s => ¬ P (c :: (x ++ s)) ∧ Spares P x s

theorem shows_append : Shows P (x ++ s) ↔ ¬ Spares P x s ∨ Shows P s := by
  induction x with
  | nil => simp [Spares]
  | cons c x ih =>
    have hcons : Shows P (c :: (x ++ s)) ↔ P (c :: (x ++ s)) ∨ Shows P (x ++ s) := by
      constructor
      · rintro ⟨r, hr, hp⟩
        rcases List.suffix_cons_iff.1 hr with rfl | hr
        · exact .inl hp
        · exact .inr ⟨r, hr, hp⟩
      · rintro (hp | ⟨r, hr, hp⟩)
        · exact ⟨_, List.suffix_refl _, hp⟩
        · exact ⟨r, hr.trans (List.suffix_cons c _), hp⟩
    rw [List.cons_append, hcons, ih, Spares, not_and_or, not_not, or_assoc]

/-- What starts with a backslash and can be told in front of the next one. -/
structure Sign (P : Text → Prop) : Prop where
  slash : ∀ {s}, P s → ∃ r, s = '\\' :: r
  stops : ∀ {x s s'}, x ≠ [] → P (x ++ '\\' :: s) → P (x ++ '\\' :: s')

namespace Sign

theorem spares_of_not_mem (h : Sign P) (hx : '\\' ∉ x) : Spares P x s := by
  induction x with
  | nil => trivial
  | cons c x ih =>
    obtain ⟨hc, hx⟩ := not_or.1 (List.mem_cons.not.1 hx)
    refine ⟨fun hp => ?_, ih hx⟩
    obtain ⟨r, hr⟩ := h.slash hp
    exact hc (List.cons.inj hr).1.symm

/-- In front of a backslash it does not matter what stands behind it. -/
theorem spares_congr (h : Sign P) {s' : Text} (hx : Spares P x ('\\' :: s)) :
    Spares P x ('\\' :: s') := by
  induction x with
  | nil => trivial
  | cons c x ih => exact ⟨fun hp => hx.1 (h.stops (x := c :: x) (by simp) hp), ih hx.2⟩

/-- A sign that starts with none of the names shows at none of them. -/
theorem spares_commands (h : Sign P) {names : List Text} (hx : Commands names x s)
    (hnames : ∀ n ∈ names, ∀ r, ¬ P ('\\' :: (n ++ r))) (hend : ¬ P ['\\']) : Spares P x s := by
  induction x with
  | nil => trivial
  | cons c x ih =>
    refine ⟨fun hp => ?_, ih hx.2⟩
    obtain ⟨r, hr⟩ := h.slash hp
    obtain ⟨rfl, -⟩ := List.cons.inj hr
    rcases hx.1 rfl with hnil | ⟨n, hn, r', hr'⟩
    · rw [hnil] at hp
      exact hend hp
    · rw [← hr'] at hp
      exact hnames n hn r' hp

end Sign

end Text

/-! ## Documents -/

/-- A document around the first tag that begins it. -/
structure Document where
  front : Text
  rest : Text
  first : Avoids openingTag front (openingTag ++ rest)

/-- What a cover page adds to a document: lines that load packages, and a page. -/
structure Cover where
  packages : List Measure
  spaced : Bool
  page : Markup spaced

namespace Document

variable (d : Document) (c : Cover)

/-- The document as a text. -/
def text : Text := d.front ++ (openingTag ++ d.rest)

/-- The document with a page. -/
def withCover : Text :=
  d.front ++ (packageLines c.packages ++ (openingTag ++ (c.page.text ++ d.rest)))

end Document

/-- What stands in the place of the tag starts with a backslash. -/
theorem Cover.exists_packages_eq (c : Cover) (s : Text) :
    ∃ r, packageLines c.packages ++ (openingTag ++ s) = '\\' :: r := by
  cases c.packages with
  | nil => exact ⟨openingWord ++ s, rfl⟩
  | cons name names =>
    obtain ⟨r, hr⟩ := exists_packageLines_eq name names
    exact ⟨r ++ (openingTag ++ s), by rw [hr, List.cons_append]⟩

theorem commands_packageLines (names : List Measure) (s : Text) :
    Commands settingNames (packageLines names) s := by
  have hend : ∀ s, Commands settingNames ['\n'] s := fun s => commands_of_not_mem (by decide)
  induction names with
  | nil => exact True.intro
  | cons name names ih =>
    rw [packageLines_cons]
    exact commands_append.2 ⟨commands_append.2 ⟨(PageSetting.package name).commands, hend _⟩, ih⟩

/-- A sign shows in a document with a page if it shows in the document itself. -/
theorem Document.shows_withCover {P : Text → Prop} (h : Sign P) (d : Document) (c : Cover)
    (hnames : ∀ n ∈ markupNames c.spaced, ∀ r, ¬ P ('\\' :: (n ++ r))) (hend : ¬ P ['\\'])
    (htag : ∀ s s', P (openingTag ++ s) → P (openingTag ++ s')) :
    Shows P (d.withCover c) ↔ Shows P d.text := by
  have hpackages : ∀ s, Spares P (packageLines c.packages) s := fun s =>
    h.spares_commands (commands_packageLines c.packages s)
      (fun n hn => hnames n (by simp [markupNames, hn])) hend
  have hpage : Spares P c.page.text d.rest :=
    h.spares_commands (c.page.commands d.rest) hnames hend
  have hfront : Spares P d.front (packageLines c.packages ++ (openingTag ++ (c.page.text ++ d.rest)))
      ↔ Spares P d.front (openingTag ++ d.rest) := by
    obtain ⟨r, hr⟩ := c.exists_packages_eq (c.page.text ++ d.rest)
    rw [hr]
    exact ⟨fun hx => h.spares_congr hx, fun hx => h.spares_congr hx⟩
  have hopening : ∀ s s', Spares P openingTag s → Spares P openingTag s' := fun s s' hs =>
    ⟨fun hp => hs.1 (htag s' s hp), h.spares_of_not_mem not_mem_openingWord⟩
  have hsame : Spares P openingTag (c.page.text ++ d.rest) ↔ Spares P openingTag d.rest :=
    ⟨hopening _ _, hopening _ _⟩
  simp only [withCover, text, shows_append, hpackages, hpage, hfront, hsame, not_true_eq_false,
    false_or]

/-! ## Declarations -/

/-- A word that holds one backslash, at its front. -/
theorem sign_word {w : Text} (hw : '\\' ∉ w) : Sign ('\\' :: w <+: ·) where
  slash := fun ⟨r, hr⟩ => ⟨w ++ r, hr.symm⟩
  stops := by
    intro x s s' hx hp
    obtain ⟨c, x, rfl⟩ := List.exists_cons_of_ne_nil hx
    obtain ⟨rfl, hprefix⟩ := List.cons_prefix_cons.1 hp
    exact List.cons_prefix_cons.2 ⟨rfl, (prefix_of_not_mem hw hprefix).trans (List.prefix_append x _)⟩

theorem shows_word {w s : Text} : Shows (w <+: ·) s ↔ w <:+: s := by
  rw [List.infix_iff_prefix_suffix]
  exact exists_congr fun r => and_comm

/-- The declaration without its backslash. -/
def Declaration.word : Declaration → Text
  | documentClass => "documentclass".toList
  | beginDocument => openingWord
  | endDocument => "end\x7bdocument\x7d".toList

theorem Declaration.text_eq (declaration : Declaration) :
    declaration.text = '\\' :: declaration.word := by
  cases declaration <;> decide

theorem Declaration.not_mem_word (declaration : Declaration) : '\\' ∉ declaration.word := by
  cases declaration <;> decide

/-- No declaration is among the names in a page. -/
theorem Declaration.clash (declaration : Declaration) {spaced : Bool} {n : Text}
    (hn : n ∈ markupNames spaced) : Clash n declaration.word := by
  have hall : ∀ spaced, (markupNames spaced).all fun n =>
      decide (Clash n documentClass.word) && decide (Clash n beginDocument.word) &&
        decide (Clash n endDocument.word) := by
    decide
  have hmem := List.all_eq_true.1 (hall spaced) n hn
  simp only [Bool.and_eq_true, decide_eq_true_eq] at hmem
  cases declaration
  · exact hmem.1.1
  · exact hmem.1.2
  · exact hmem.2

theorem Declaration.clash_opening (declaration : Declaration) :
    declaration = beginDocument ∨ Clash declaration.word openingWord := by
  cases declaration
  · exact .inr (by decide)
  · exact .inl rfl
  · exact .inr (by decide)

theorem not_prefix_of_clash {n w : Text} (h : Clash n w) (r : Text) : ¬ w <+: n ++ r := by
  intro hw
  rcases List.prefix_or_prefix_of_prefix hw (List.prefix_append n r) with hwn | hnw
  · exact h.2 hwn
  · exact h.1 hnw

/-- The same declarations are missing. -/
theorem Document.checkDeclarations_withCover (d : Document) (c : Cover) :
    checkDeclarations (d.withCover c) = checkDeclarations d.text := by
  have hsame : ∀ declaration : Declaration,
      (d.withCover c).contains declaration.text = d.text.contains declaration.text := by
    intro declaration
    rw [Bool.eq_iff_iff, contains_iff, contains_iff, declaration.text_eq, ← shows_word, ← shows_word]
    refine d.shows_withCover (sign_word declaration.not_mem_word) c (fun n hn r hp => ?_) ?_
      fun s s' hp => ?_
    · exact not_prefix_of_clash (declaration.clash hn) r (List.cons_prefix_cons.1 hp).2
    · cases declaration <;> decide
    · rcases declaration.clash_opening with rfl | hclash
      · exact List.prefix_append openingTag s'
      · exact absurd (List.cons_prefix_cons.1 hp).2 (not_prefix_of_clash ⟨hclash.2, hclash.1⟩ s)
  simp only [checkDeclarations, hsame]

/-! ## Images -/

theorem steady_caseless (w : String) : (caseless w).Steady := by
  rw [caseless]
  induction w.toList with
  | nil => trivial
  | cons c w ih => exact ⟨trivial, ih⟩

theorem exists_matches_caseless {w : String} {x r : Text} {s : Cursor}
    (h : List.Forall₂ (fun a c => sameLetter a c = true) w.toList x) (hs : s.rest = x ++ r) :
    ∃ t, (caseless w).Matches s t ∧ t.rest = r := by
  rw [caseless]
  generalize w.toList = w at h ⊢
  induction h generalizing s with
  | nil => exact ⟨s, rfl, hs⟩
  | @cons a c v x hfirst _ ih =>
    obtain ⟨t, ht, hr⟩ := ih (s := s.next c (x ++ r)) rfl
    exact ⟨t, ⟨s.next c (x ++ r), ⟨c, x ++ r, hs, hfirst, rfl⟩, ht⟩, hr⟩

theorem exists_matches_imageCommand {x : Text} (b : Option Char) (r : Text)
    (h : List.Forall₂ (fun a c => sameLetter a c = true) imageWord x) :
    ∃ stop, imageCommandPattern.Matches ⟨b, '\\' :: x ++ r, []⟩ stop := by
  have hletters : "\\includegraphics".toList = '\\' :: imageWord := by decide
  have hword : List.Forall₂ (fun a c => sameLetter a c = true) "\\includegraphics".toList ('\\' :: x) := by
    rw [hletters]
    exact .cons (sameLetter_self _) h
  obtain ⟨stop, hstop, -⟩ := exists_matches_caseless (s := ⟨b, '\\' :: x ++ r, []⟩) hword rfl
  exact ⟨stop, hstop⟩

/-- The command for images stands at the front of the text. -/
def ImageFront (s : Text) : Prop :=
  ∃ x r, s = '\\' :: x ++ r ∧ List.Forall₂ (fun a c => sameLetter a c = true) imageWord x

theorem at?_imageCommand_eq_none_iff {b : Option Char} {s : Text} :
    imageCommandPattern.at? b s = none ↔ ¬ ImageFront s := by
  constructor
  · rintro hnone ⟨x, r, rfl, hx⟩
    obtain ⟨found, hfound⟩ := exists_matches_imageCommand b r hx
    have hsome := at?_isSome (steady_caseless _) hfound
    exact absurd (hnone ▸ hsome) (by simp)
  · refine fun h => Option.eq_none_iff_forall_ne_some.2 fun stop hstop => h ?_
    obtain ⟨x, hs, hx⟩ := matches_imageCommand (matches_of_at? hstop)
    exact ⟨x, stop.rest, hs, hx⟩

/-- The backslash is no form of a letter in the name. -/
theorem sameLetter_imageWord : ∀ a ∈ imageWord, sameLetter a '\\' = false := by
  have hall : imageWord.all fun a => !sameLetter a '\\' := by decide
  intro a ha
  simpa using List.all_eq_true.1 hall a ha

theorem sign_imageFront : Sign ImageFront where
  slash := fun ⟨x, r, hs, _⟩ => ⟨x ++ r, hs⟩
  stops := by
    rintro x s s' hx ⟨y, r, hs, hy⟩
    obtain ⟨c, x, rfl⟩ := List.exists_cons_of_ne_nil hx
    obtain ⟨rfl, htail⟩ := List.cons.inj hs
    rcases append_eq_append_cons htail.symm with ⟨a, rfl, -⟩ | ⟨v, rfl, -⟩
    · exact ⟨y, a ++ '\\' :: s', by simp, hy⟩
    · -- The command holds no second backslash.
      exfalso
      obtain ⟨a, ha, hslash⟩ : ∃ a ∈ imageWord, sameLetter a '\\' = true := by
        obtain ⟨a, w, ha, -, hw⟩ :=
          List.forall₂_cons_right_iff.1 (List.forall₂_drop_append _ _ _ hy)
        exact ⟨a, List.mem_of_mem_drop (hw ▸ List.mem_cons_self), ha⟩
      exact absurd hslash (by simp [sameLetter_imageWord a ha])

theorem occursIn_imageCommand {s : Text} :
    imageCommandPattern.occursIn s = true ↔ Shows ImageFront s := by
  have hfirst : ∀ b, (imageCommandPattern.first? b s).isSome = true ↔ Shows ImageFront s := by
    induction s with
    | nil =>
      intro b
      have hnone : ¬ Shows ImageFront [] := by
        rintro ⟨r, hr, x, r', rfl, -⟩
        exact absurd (List.suffix_nil.1 hr) (by simp)
      simp [first?_nil opens_imageCommand.consumes, hnone]
    | cons c s ih =>
      intro b
      rw [← List.singleton_append, shows_append, ← ih (some c), List.singleton_append, first?]
      cases hat : imageCommandPattern.at? b (c :: s) with
      | none => simp [Spares, at?_imageCommand_eq_none_iff.1 hat]
      | some stop =>
        have hfront : ImageFront (c :: s) := by
          by_contra hno
          exact absurd (hat.symm.trans (at?_imageCommand_eq_none_iff.2 hno)) (by simp)
        simp [Spares, hfront]
  exact hfirst none

theorem Unlike.not_imageFront {n : Text} (h : Unlike n) (r : Text) :
    ¬ ImageFront ('\\' :: (n ++ r)) := by
  rintro ⟨x, r', hs, hx⟩
  have hall := all_sameLetter hx (List.cons.inj hs).2
  exact absurd hall (by rw [h]; decide)

theorem unlike_markupNames {spaced : Bool} {n : Text} (hn : n ∈ markupNames spaced) : Unlike n := by
  have hall : ∀ spaced, (markupNames spaced).all fun n => decide (Unlike n) := by decide
  exact of_decide_eq_true (List.all_eq_true.1 (hall spaced) n hn)

/-- Images are found as before. -/
theorem Document.checkForbidden_withCover (d : Document) (c : Cover) :
    checkForbidden (d.withCover c) = checkForbidden d.text := by
  have hopening : ∀ s, ¬ ImageFront (openingTag ++ s) :=
    Unlike.not_imageFront (n := openingWord) (by decide)
  have hend : ¬ ImageFront ['\\'] := by
    rintro ⟨x, r, hs, hx⟩
    obtain ⟨rfl, -⟩ := List.append_eq_nil_iff.1 (List.cons.inj hs).2.symm
    exact absurd hx.length_eq (by decide)
  have hsame : imageCommandPattern.occursIn (d.withCover c) = imageCommandPattern.occursIn d.text := by
    rw [Bool.eq_iff_iff, occursIn_imageCommand, occursIn_imageCommand]
    exact d.shows_withCover sign_imageFront c (fun n hn => (unlike_markupNames hn).not_imageFront)
      hend fun s _ hp => absurd hp (hopening s)
  rw [checkForbidden, checkForbidden, hsame]

end LatexPreview
