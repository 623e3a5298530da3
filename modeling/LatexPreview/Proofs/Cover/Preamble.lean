import Mathlib
import LatexPreview.Proofs.Cover.Packages

/-!
# The preamble of a document with a cover page

The packages of the cover page that the document does not load anywhere are loaded in its preamble.
Whether the document loads one of them is a question about the whole of it: a command behind the tag
at which it begins will do, though the preamble then loads nothing.

* `missingPackages` are the packages that are loaded nowhere
* `ensurePackages_missing`: these are loaded in front of the tag, in their order
* `loaded_insert_packageRows`: lines that load other packages change nothing
* `ensurePackages_preamble`: when the preamble loads all of the packages afterwards
-/

namespace LatexPreview

open Pattern Text

/-! ## Lines -/

/-- A line that loads a package. -/
def packageLine (package : String) : Text := applied "\\usepackage" package.toList ++ ['\n']

/-- The letters of a word stand at the front of a text. -/
def spells : Text → Text → Bool
  | [], _ => true
  | _ :: _, [] => false
  | a :: letters, c :: s => sameLetter a c && spells letters s

theorem spells_of_spelled {letters w s : Text} (hw : Spelled letters w) (h : w <+: s) :
    spells letters s = true := by
  induction hw generalizing s with
  | nil => cases s <;> rfl
  | @cons a c letters w hac _ ih =>
    obtain ⟨r, rfl⟩ := h
    simp [spells, hac, ih (List.prefix_append w r)]

theorem unnamed_of_tails {package : String} {s : Text}
    (h : (s.tails.all fun r => !spells package.toList r) = true) : Unnamed package s := by
  intro w hw hi
  obtain ⟨r, hr, hsuffix⟩ := List.infix_iff_prefix_suffix.1 hi
  have hnone := List.all_eq_true.1 h r ((List.mem_tails _ _).2 hsuffix)
  rw [spells_of_spelled hw hr] at hnone
  exact absurd hnone (by simp)

section Cover

variable {p q : String} (hp : p ∈ coverPackages) (hq : q ∈ coverPackages)

include hp in
theorem lettered_coverPackage : Lettered p := by
  have hall : coverPackages.all fun p => !p.toList.isEmpty &&
      ['\\', '{', '}', '\n'].all fun c => p.toList.all fun a => !sameLetter a c := by decide
  have hone := List.all_eq_true.1 hall p hp
  simp only [Bool.and_eq_true, List.all_eq_true, Bool.not_eq_true'] at hone
  exact ⟨by simpa using hone.1, hone.2⟩

include hp hq in
/-- The name of a package does not stand in the line of another one. -/
theorem unnamed_packageLine (hne : p ≠ q) : Unnamed p (packageLine q) := by
  have hall : coverPackages.all fun p => coverPackages.all fun q => p == q ||
      (packageLine q).tails.all fun r => !spells p.toList r := by decide
  have hone := List.all_eq_true.1 (List.all_eq_true.1 hall p hp) q hq
  simp only [Bool.or_eq_true, beq_iff_eq, hne, false_or] at hone
  exact unnamed_of_tails hone

include hp in
theorem unnamed_openingTag : Unnamed p openingTag := by
  have hall : coverPackages.all fun p => openingTag.tails.all fun r => !spells p.toList r := by decide
  exact unnamed_of_tails (List.all_eq_true.1 hall p hp)

include hp in
/-- The line of a package loads it. -/
theorem loaded_packageLine : Loaded p (packageLine p) := by
  have hall : coverPackages.all fun p => !p.toList.contains '}' &&
      atBoundary (some '{') (p.toList ++ ['}']).head? &&
      atBoundary (p.toList.getLast?.or (some '{')) (some '}') := by decide
  have hone := List.all_eq_true.1 hall p hp
  simp only [Bool.and_eq_true, Bool.not_eq_true', List.contains_eq_mem, decide_eq_false_iff_not] at hone
  obtain ⟨⟨hfree, hleft⟩, hright⟩ := hone
  have hsame : ∀ w, Spelled w w := fun w => List.forall₂_same.2 fun a _ => sameLetter_self a
  exact ⟨_, (List.prefix_append _ _).isInfix, "\\usepackage".toList, [], p.toList, rfl, hsame _, .inl rfl,
    hfree, [], p.toList, [], by simp, hsame _, hleft, hright⟩

end Cover

/-! ## Lines in front of a tag -/

/-- The text starts with a backslash, and in front of its first closing brace there is no name of
the package. -/
def Border (package : String) (z : Text) : Prop :=
  ∃ v r, z = '\\' :: (v ++ '}' :: r) ∧ '}' ∉ v ∧ Unnamed package v

/-- The lines that load some packages. -/
def packageRows (packages : List String) : Text := packages.flatMap packageLine

section Rows

variable {p q : String} {packages : List String} (hp : p ∈ coverPackages)
  (hpackages : ∀ q ∈ packages, q ∈ coverPackages) (hother : p ∉ packages) {front z : Text}

theorem Unnamed.of_isInfix {s s' : Text} (h : Unnamed p s) (hi : s' <:+: s) : Unnamed p s' :=
  fun w hw hi' => h w hw (hi'.trans hi)

/-- A command with an argument stands at a border, if the name of the package is not in it. -/
theorem border_of_unnamed {v : Text} (hfree : '}' ∉ v) (h : Unnamed p ('\\' :: (v ++ ['}']))) (z : Text) :
    Border p ('\\' :: (v ++ ['}']) ++ z) :=
  ⟨v, z, by simp, hfree, h.of_isInfix ⟨['\\'], ['}'], by simp⟩⟩

theorem packageLine_eq (q : String) :
    packageLine q = '\\' :: (("usepackage\x7b".toList ++ q.toList) ++ ['}']) ++ ['\n'] := by
  simp [packageLine, applied, braced]

include hp in
theorem border_packageLine (hq : q ∈ coverPackages) (hne : p ≠ q) (z : Text) :
    Border p (packageLine q ++ z) := by
  have hall : coverPackages.all fun q => decide ('}' ∉ "usepackage\x7b".toList ++ q.toList) := by decide
  have hfree := of_decide_eq_true (List.all_eq_true.1 hall q hq)
  have hline := unnamed_packageLine hp hq hne
  rw [packageLine_eq] at hline ⊢
  rw [List.append_assoc]
  exact border_of_unnamed hfree (hline.of_isInfix (List.prefix_append _ _).isInfix) _

include hp in
theorem border_openingTag (rest : Text) : Border p (openingTag ++ rest) := by
  have htag : openingTag = '\\' :: (openingWord.dropLast ++ ['}']) := by decide
  have hname := unnamed_openingTag hp
  rw [htag] at hname ⊢
  exact border_of_unnamed (by decide) hname rest

include hp hpackages hother in
theorem border_packageRows (hz : Border p z) : Border p (packageRows packages ++ z) := by
  cases packages with
  | nil => exact hz
  | cons q packages =>
    have hrows : packageRows (q :: packages) ++ z = packageLine q ++ (packageRows packages ++ z) := by
      simp [packageRows]
    rw [hrows]
    exact border_packageLine hp (hpackages q (by simp)) (fun heq => hother (by simp [heq])) _

include hp in
/-- A text without the name of the package, and without options, does not matter in front of what
follows. -/
theorem loaded_append_of_unnamed {x : Text} (hx : Unnamed p x) (hoption : '[' ∉ x) (hz : Border p z) :
    Loaded p (x ++ z) ↔ Loaded p z := by
  have hletters := lettered_coverPackage hp
  obtain ⟨v, r, rfl, hfree, hv⟩ := hz
  rw [loaded_append hletters rfl hfree hv]
  have hno : ¬ OpenOption x := by
    rintro ⟨f, key, o, rfl, -⟩
    exact hoption (by simp)
  have hnames : ¬ OpenNames p x := by
    rintro ⟨f, key, o, u, rfl, -, -, -, a, w, b, hsplit, hw, -⟩
    have hi : w <:+: u ++ '\\' :: [] := ⟨a, b, by rw [hsplit, List.append_assoc]⟩
    rcases (infix_append_cons (hw.ne_nil hletters)
      (hw.not_mem (hletters.letters '\\' (by simp)))).1 hi with hi | hi
    · exact hx w hw (hi.trans ⟨f ++ (key ++ (o ++ ['{'])), [], by simp⟩)
    · exact hw.ne_nil hletters (List.infix_nil.1 hi)
  simp [hx.not_loaded, hno, hnames]

include hp in
/-- A line that loads another package changes nothing. -/
theorem loaded_insert_packageLine (hq : q ∈ coverPackages) (hne : p ≠ q) (hz : Border p z) :
    Loaded p (front ++ (packageLine q ++ z)) ↔ Loaded p (front ++ z) := by
  have hletters := lettered_coverPackage hp
  have hfree : ∀ c ∈ ['[', ']'], c ∉ packageLine q := by
    have hall : coverPackages.all fun q => ['[', ']'].all fun c => decide (c ∉ packageLine q) := by decide
    intro c hc
    exact of_decide_eq_true (List.all_eq_true.1 (List.all_eq_true.1 hall q hq) c hc)
  have hfinish : FinishesOption p (packageLine q ++ z) ↔ FinishesOption p z := by
    have hbracket := hfree ']' (by simp)
    constructor
    · rintro ⟨o, inside, r, hsplit, ho, hinside⟩
      rcases append_eq_append_cons hsplit with ⟨o', rfl, hz'⟩ | ⟨e, he, -⟩
      · exact ⟨o', inside, r, hz', fun hmem => ho (by simp [hmem]), hinside⟩
      · exact absurd (by simp [he]) hbracket
    · rintro ⟨o, inside, r, rfl, ho, hinside⟩
      exact ⟨packageLine q ++ o, inside, r, by simp, by simp [ho, hbracket], hinside⟩
  have hline := loaded_append_of_unnamed hp (unnamed_packageLine hp hq hne) (hfree '[' (by simp)) hz
  obtain ⟨v, r, hv, hvfree, hvnamed⟩ := border_packageLine hp hq hne z
  obtain ⟨v', r', hv', hvfree', hvnamed'⟩ := hz
  rw [loaded_append (x := front) hletters hv hvfree hvnamed,
    loaded_append (x := front) hletters hv' hvfree' hvnamed', hline, hfinish]

include hp hpackages hother in
/-- Lines that load other packages change nothing. -/
theorem loaded_insert_packageRows (hz : Border p z) :
    Loaded p (front ++ (packageRows packages ++ z)) ↔ Loaded p (front ++ z) := by
  induction packages with
  | nil => exact Iff.rfl
  | cons q packages ih =>
    have hrows : packageRows (q :: packages) ++ z = packageLine q ++ (packageRows packages ++ z) := by
      simp [packageRows]
    have hmore : ∀ q ∈ packages, q ∈ coverPackages := fun q hq => hpackages q (by simp [hq])
    have hrest : p ∉ packages := fun hmem => hother (by simp [hmem])
    rw [hrows, loaded_insert_packageLine hp (hpackages q (by simp)) (fun heq => hother (by simp [heq]))
      (border_packageRows hp hmore hrest hz), ih hmore hrest]

include hp hpackages hother in
theorem unnamed_packageRows : Unnamed p (packageRows packages) := by
  intro w hw
  have hletters := lettered_coverPackage hp
  induction packages with
  | nil => exact fun hi => hw.ne_nil hletters (List.infix_nil.1 hi)
  | cons q packages ih =>
    have hrows : packageRows (q :: packages) =
        applied "\\usepackage" q.toList ++ '\n' :: packageRows packages := by
      simp [packageRows, packageLine]
    rw [hrows, infix_append_cons (hw.ne_nil hletters) (hw.not_mem (hletters.letters '\n' (by simp)))]
    rintro (hi | hi)
    · exact unnamed_packageLine hp (hpackages q (by simp)) (fun heq => hother (by simp [heq])) w hw
        (hi.trans (List.prefix_append _ _).isInfix)
    · exact ih (fun q hq => hpackages q (by simp [hq])) (fun hmem => hother (by simp [hmem])) hi

theorem mem_packageRows {p : String} (h : p ∈ packages) : packageLine p <:+: packageRows packages := by
  obtain ⟨x, y, rfl⟩ := List.append_of_mem h
  exact ⟨packageRows x, packageRows y, by simp [packageRows]⟩

include hp in
/-- In front of a text that names the package nowhere and ends no options, a command that loads it is
complete, or ends in this text because it has its names left open. -/
theorem loaded_append_unnamed (hz : Border p z) (hunnamed : Unnamed p z) (hoption : ']' ∉ z) :
    Loaded p (front ++ z) ↔ Loaded p front ∨ OpenNames p front := by
  obtain ⟨v, r, hv, hfree, hvnamed⟩ := hz
  have hno : ¬ FinishesOption p z := by
    rintro ⟨o, inside, r, rfl, -⟩
    exact hoption (by simp)
  rw [loaded_append (lettered_coverPackage hp) hv hfree hvnamed]
  simp [hunnamed.not_loaded, hno]

end Rows

/-! ## The whole document -/

/-- The packages that the document loads nowhere. -/
def missingPackages (latex : Text) : List String :=
  coverPackages.filter fun package => !(loadsPackage package).occursIn latex

/-- The text in front of the first tag at which a document begins. -/
def preamble (latex : Text) : Text :=
  ((documentOpening.find? latex).map (·.gap)).getD latex

theorem occursIn_coverPackage {p : String} (hp : p ∈ coverPackages) {s : Text} :
    (loadsPackage p).occursIn s = true ↔ Loaded p s :=
  occursIn_loadsPackage (lettered_coverPackage hp)

theorem mem_missingPackages {p : String} {latex : Text} :
    p ∈ missingPackages latex ↔ p ∈ coverPackages ∧ (loadsPackage p).occursIn latex = false := by
  simp [missingPackages]

theorem preamble_eq {front rest : Text} (h : Avoids openingTag front (openingTag ++ rest)) :
    preamble (front ++ (openingTag ++ rest)) = front := by
  obtain ⟨stop, hfirst, -⟩ := first?_opening h
  rw [preamble, Pattern.find?, hfirst]
  rfl

section Document

variable {front rest : Text} (h : Avoids openingTag front (openingTag ++ rest))

theorem exists_packageLines {packages : List String} (hpackages : ∀ q ∈ packages, q ∈ coverPackages) :
    ∃ names, packageRows packages = packageLines names := by
  induction packages with
  | nil => exact ⟨[], rfl⟩
  | cons q packages ih =>
    obtain ⟨names, hnames⟩ := ih fun q hq => hpackages q (by simp [hq])
    obtain ⟨name, hname⟩ := exists_measure (hpackages q (by simp))
    refine ⟨[name] ++ names, ?_⟩
    rw [packageLines_append, packageLines_singleton, ← hnames, hname]
    rfl

include h in
theorem avoids_packageRows {packages : List String} (hpackages : ∀ q ∈ packages, q ∈ coverPackages) :
    Avoids openingTag (front ++ packageRows packages) (openingTag ++ rest) := by
  obtain ⟨names, hnames⟩ := exists_packageLines hpackages
  rw [hnames]
  exact avoids_packageLines h names

/-- Lines that load other packages do not decide whether a package is loaded. -/
theorem occursIn_packageRows {p : String} (hp : p ∈ coverPackages) {packages : List String}
    (hpackages : ∀ q ∈ packages, q ∈ coverPackages) (hother : p ∉ packages) :
    (loadsPackage p).occursIn (front ++ (packageRows packages ++ (openingTag ++ rest))) =
      (loadsPackage p).occursIn (front ++ (openingTag ++ rest)) := by
  rw [Bool.eq_iff_iff, occursIn_coverPackage hp, occursIn_coverPackage hp]
  exact loaded_insert_packageRows hp hpackages hother (border_openingTag hp rest)

include h in
theorem loadPackage_packageRows {p : String} (hp : p ∈ coverPackages) {packages : List String}
    (hpackages : ∀ q ∈ packages, q ∈ coverPackages) :
    loadPackage p (front ++ (packageRows packages ++ (openingTag ++ rest))) =
      front ++ (packageRows (packages ++ [p]) ++ (openingTag ++ rest)) := by
  obtain ⟨name, hname⟩ := exists_measure hp
  rw [← List.append_assoc, loadPackage_eq (avoids_packageRows h hpackages) hname,
    packageLines_singleton, hname]
  simp [packageRows, packageLine]

include h in
/-- The packages that the document loads nowhere are loaded in front of the first tag, in their
order. -/
theorem ensurePackages_missing :
    ensurePackages (front ++ (openingTag ++ rest)) =
      front ++ (packageRows (missingPackages (front ++ (openingTag ++ rest))) ++ (openingTag ++ rest)) := by
  have hfold : ∀ later earlier : List String, (∀ p ∈ later, p ∈ coverPackages) →
      (∀ p ∈ earlier, p ∈ coverPackages) → later.Nodup → (∀ p ∈ later, p ∉ earlier) →
      later.foldl (fun s package => if (loadsPackage package).occursIn s then s else loadPackage package s)
        (front ++ (packageRows earlier ++ (openingTag ++ rest))) =
      front ++ (packageRows (earlier ++ later.filter fun package =>
        !(loadsPackage package).occursIn (front ++ (openingTag ++ rest))) ++ (openingTag ++ rest)) := by
    intro later
    induction later with
    | nil => simp
    | cons p later ih =>
      intro earlier hlater hearlier hnodup hother
      obtain ⟨hnew, hnodup⟩ := List.nodup_cons.1 hnodup
      have hp := hlater p (by simp)
      rw [List.foldl_cons, occursIn_packageRows hp hearlier (hother p (by simp))]
      cases hfound : (loadsPackage p).occursIn (front ++ (openingTag ++ rest)) with
      | true =>
        rw [if_pos rfl, List.filter_cons_of_neg (by simp [hfound])]
        exact ih earlier (fun q hq => hlater q (by simp [hq])) hearlier hnodup
          fun q hq => hother q (by simp [hq])
      | false =>
        rw [if_neg (by simp), List.filter_cons_of_pos (by simp [hfound]), List.append_cons earlier p,
          loadPackage_packageRows h hp hearlier]
        refine ih (earlier ++ [p]) (fun q hq => hlater q (by simp [hq])) ?_ hnodup ?_
        · simpa [or_imp, forall_and] using ⟨hearlier, hp⟩
        · intro q hq hmem
          rcases List.mem_append.1 hmem with hmem | hmem
          · exact hother q (by simp [hq]) hmem
          · exact hnew (List.mem_singleton.1 hmem ▸ hq)
  exact hfold coverPackages [] (fun _ hp => hp) (by simp) (by decide) (by simp)

/-- A package is loaded in front of the tag afterwards if it was loaded nowhere, or there, or if it
was named last there and another line follows. -/
theorem loaded_preamble_iff {p : String} (hp : p ∈ coverPackages) :
    Loaded p (front ++ packageRows (missingPackages (front ++ (openingTag ++ rest)))) ↔
      (Loaded p (front ++ (openingTag ++ rest)) → Loaded p front ∨
        Loaded p (front ++ openingTag) ∧ missingPackages (front ++ (openingTag ++ rest)) ≠ []) := by
  generalize hs : front ++ (openingTag ++ rest) = s
  have hmissing : ∀ q ∈ missingPackages s, q ∈ coverPackages := fun q hq => (mem_missingPackages.1 hq).1
  by_cases hmem : p ∈ missingPackages s
  · have hnone : ¬ Loaded p s := by
      rw [← occursIn_coverPackage hp, (mem_missingPackages.1 hmem).2]
      simp
    refine iff_of_true ?_ fun hl => absurd hl hnone
    exact (loaded_packageLine hp).mono ((mem_packageRows hmem).trans (List.suffix_append _ _).isInfix)
  · have hfound : Loaded p s := by
      rw [← occursIn_coverPackage hp]
      simpa [mem_missingPackages, hp] using hmem
    have hbrackets : ']' ∉ openingTag := by decide
    have hopening : Loaded p (front ++ openingTag) ↔ Loaded p front ∨ OpenNames p front := by
      have hborder := border_openingTag hp []
      rw [List.append_nil] at hborder
      exact loaded_append_unnamed hp hborder (unnamed_openingTag hp) hbrackets
    cases hms : missingPackages s with
    | nil => simp [packageRows, hfound]
    | cons q more =>
      rw [hms] at hmem hmissing
      have hfree : ']' ∉ packageRows (q :: more) := by
        have hall : coverPackages.all fun q => decide (']' ∉ packageLine q) := by decide
        intro hbracket
        obtain ⟨q', hq', hline⟩ := List.mem_flatMap.1 hbracket
        exact of_decide_eq_true (List.all_eq_true.1 hall q' (hmissing q' hq')) hline
      have hborder : Border p (packageRows (q :: more)) := by
        have hline := border_packageLine hp (hmissing q (by simp)) (fun heq => hmem (by simp [heq]))
          (packageRows more)
        simpa [packageRows] using hline
      rw [loaded_append_unnamed hp hborder (unnamed_packageRows hp hmissing hmem) hfree, hopening]
      simp only [hfound, true_implies, ne_eq, reduceCtorEq, not_false_eq_true, and_true]
      exact ⟨.inr, fun h => h.elim .inl id⟩

include h in
/-- Afterwards nothing is missing. -/
theorem missingPackages_ensurePackages :
    missingPackages (ensurePackages (front ++ (openingTag ++ rest))) = [] := by
  refine List.filter_eq_nil_iff.2 fun p hp => ?_
  rw [ensurePackages_missing h]
  by_cases hmem : p ∈ missingPackages (front ++ (openingTag ++ rest))
  · have hloaded := (loaded_packageLine hp).mono ((mem_packageRows hmem).trans
      (List.infix_append front _ (openingTag ++ rest)))
    rw [List.append_assoc] at hloaded
    simp [(occursIn_coverPackage hp).2 hloaded]
  · rw [occursIn_packageRows hp (fun q hq => (mem_missingPackages.1 hq).1) hmem]
    simpa [mem_missingPackages, hp] using hmem

end Document

/-- The preamble loads all packages of the cover page afterwards if and only if, before, each of them
that the document loads was loaded in the preamble, or was among the names that a command at the end
of the preamble leaves open, while another package was missing.  To do it again changes nothing. -/
theorem ensurePackages_preamble {latex : Text} (h : openingTag <:+: latex) :
    ((∀ p ∈ coverPackages, (loadsPackage p).occursIn (preamble (ensurePackages latex)) = true) ↔
      ∀ p ∈ coverPackages, (loadsPackage p).occursIn latex = true →
        (loadsPackage p).occursIn (preamble latex) = true ∨
          (loadsPackage p).occursIn (preamble latex ++ openingTag) = true ∧ missingPackages latex ≠ []) ∧
      ensurePackages (ensurePackages latex) = ensurePackages latex := by
  obtain ⟨front, rest, rfl, havoids⟩ := exists_first h
  have hensure : ensurePackages (front ++ (openingTag ++ rest)) =
      (front ++ packageRows (missingPackages (front ++ (openingTag ++ rest)))) ++ (openingTag ++ rest) := by
    rw [ensurePackages_missing havoids, List.append_assoc]
  have hlater : Avoids openingTag
      (front ++ packageRows (missingPackages (front ++ (openingTag ++ rest)))) (openingTag ++ rest) :=
    avoids_packageRows havoids fun q hq => (mem_missingPackages.1 hq).1
  constructor
  · rw [hensure, preamble_eq hlater, preamble_eq havoids]
    refine forall₂_congr fun p hp => ?_
    simp only [occursIn_coverPackage hp]
    exact loaded_preamble_iff hp
  · have hnone := missingPackages_ensurePackages havoids
    rw [hensure] at hnone ⊢
    rw [ensurePackages_missing hlater, hnone]
    rfl

/-- A package that is loaded among others is not loaded again, and the other one is added. -/
theorem ensurePackages_preamble_list :
    openingTag <:+: "\\usepackage\x7bamsmath,array\x7d\n\\begin\x7bdocument\x7dText".toList ∧
      ∀ p ∈ coverPackages, (loadsPackage p).occursIn (preamble (ensurePackages
        "\\usepackage\x7bamsmath,array\x7d\n\\begin\x7bdocument\x7dText".toList)) = true := by
  have htag : openingTag <:+: "\\usepackage\x7bamsmath,array\x7d\n\\begin\x7bdocument\x7dText".toList :=
    ⟨"\\usepackage\x7bamsmath,array\x7d\n".toList, "Text".toList, by decide⟩
  exact ⟨htag, (ensurePackages_preamble htag).1.2 (by decide)⟩

/-- A package that is loaded behind the tag is missing in the preamble. -/
theorem package_behind_tag_not_in_preamble :
    openingTag <:+: "\\begin\x7bdocument\x7d\\usepackage\x7barray\x7d\\usepackage\x7bgeometry\x7d".toList ∧
      (loadsPackage "array").occursIn (preamble (ensurePackages
        "\\begin\x7bdocument\x7d\\usepackage\x7barray\x7d\\usepackage\x7bgeometry\x7d".toList)) = false := by
  refine ⟨⟨[], "\\usepackage\x7barray\x7d\\usepackage\x7bgeometry\x7d".toList, by decide⟩, by decide⟩

end LatexPreview
