import Mathlib
import LatexPreview.Proofs.Cover.Markup
import LatexPreview.Proofs.Text.Words

/-!
# Where a cover page is put

A document is cut at the first tag that begins it: lines that load packages go in front of this
tag, and the page goes behind it.  As the tag has its only backslash at its front, whether an
occurrence of it starts in the text before it does not depend on what stands there instead.

* `cutFirst_opening`: the first tag is found
* `ensurePackages_eq`, `injectCoverPage_eq`: what stands in front of the tag and behind it
-/

namespace LatexPreview

open Pattern Text

/-! ## The tag that begins a document -/

/-- The tag that begins a document, without its backslash. -/
def openingWord : Text := "begin\x7bdocument\x7d".toList

/-- The tag that begins a document. -/
def openingTag : Text := '\\' :: openingWord

theorem not_mem_openingWord : '\\' ∉ openingWord := by decide

theorem at?_opening (b : Option Char) (s : Text) :
    ∃ stop, documentOpening.at? b (openingTag ++ s) = some stop ∧ stop.rest = s := by
  have hrest : (documentOpening.at? b (openingTag ++ s)).map (·.rest) = some s :=
    run_lit_some.trans (dropFront?_append openingTag s)
  obtain ⟨stop, hstop, hs⟩ := Option.map_eq_some_iff.1 hrest
  exact ⟨stop, hstop, hs⟩

theorem leads_documentOpening : documentOpening.Leads [openingTag] := by
  have hleads := leads_lit openingTag []
  rwa [List.append_nil] at hleads

theorem opens_documentOpening : documentOpening.Opens '\\' := opens_opening "document"

/-- The first tag is the one behind a text without such a tag. -/
theorem first?_opening {front rest : Text} (h : Avoids openingTag front (openingTag ++ rest)) :
    ∃ stop, documentOpening.first? none (front ++ (openingTag ++ rest)) =
      some ⟨front, openingTag, stop⟩ ∧ stop.rest = rest := by
  have hskips : documentOpening.Skips none front (openingTag ++ rest) :=
    leads_documentOpening.skips fun w hw => List.mem_singleton.1 hw ▸ h
  obtain ⟨stop, hstop, hrest⟩ := at?_opening (front.getLast?.or none) rest
  refine ⟨stop, ?_, hrest⟩
  rw [first?_skips hskips, first?_of_at? (by simp [openingTag]) hstop hrest]
  simp

/-- The cut at the first tag. -/
theorem cutFirst_opening {front rest : Text} (h : Avoids openingTag front (openingTag ++ rest)) :
    ∃ stop, documentOpening.cutFirst (front ++ (openingTag ++ rest)) =
      ⟨[⟨front, openingTag, stop⟩], rest⟩ := by
  obtain ⟨stop, hfirst, hrest⟩ := first?_opening h
  refine ⟨stop, ?_⟩
  rw [cutFirst, cutAtMost, hfirst]
  simp only [hrest]
  rfl

/-- A document without such a tag is not cut. -/
theorem find?_opening_eq_none {latex : Text} (h : ¬ openingTag <:+: latex) :
    documentOpening.find? latex = none := by
  have hskips : documentOpening.Skips none latex [] := leads_documentOpening.skips fun w hw =>
    List.mem_singleton.1 hw ▸ (avoids_nil_iff (by simp [openingTag])).2 h
  have hfirst := first?_skips hskips
  rwa [List.append_nil, first?_nil opens_documentOpening.consumes] at hfirst

/-! ## In front of the tag -/

/-- Lines that load packages. -/
def packageLines (names : List Measure) : Text :=
  names.flatMap fun name => (PageSetting.package name).text ++ ['\n']

theorem packageLines_append (names names' : List Measure) :
    packageLines (names ++ names') = packageLines names ++ packageLines names' :=
  List.flatMap_append

theorem packageLines_singleton (name : Measure) :
    packageLines [name] = applied "\\usepackage" name.1 ++ ['\n'] := List.flatMap_singleton _ _

theorem isMarkup_packageLines {spaced : Bool} (names : List Measure) :
    IsMarkup spaced (packageLines names) := by
  induction names with
  | nil => exact .nil
  | cons name names ih => exact (IsMarkup.setting (.package name)).append ih

/-- The names of the packages as words. -/
theorem exists_measure {package : String} (h : package ∈ coverPackages) :
    ∃ name : Measure, name.1 = package.toList := by
  simp only [coverPackages, List.mem_cons, List.not_mem_nil, or_false] at h
  rcases h with rfl | rfl
  · exact ⟨⟨"array".toList, by simp⟩, rfl⟩
  · exact ⟨⟨"geometry".toList, by simp⟩, rfl⟩

theorem packageLines_cons (name : Measure) (names : List Measure) :
    packageLines (name :: names) =
      (PageSetting.package name).text ++ ['\n'] ++ packageLines names := List.flatMap_cons

theorem exists_packageLines_eq (name : Measure) (names : List Measure) :
    ∃ s, packageLines (name :: names) = '\\' :: s := by
  have hword : "\\usepackage".toList = '\\' :: "usepackage".toList := by simp
  refine ⟨"usepackage".toList ++ braced name.1 ++ ['\n'] ++ packageLines names, ?_⟩
  calc packageLines (name :: names)
      = "\\usepackage".toList ++ braced name.1 ++ ['\n'] ++ packageLines names :=
        packageLines_cons name names
    _ = '\\' :: "usepackage".toList ++ braced name.1 ++ ['\n'] ++ packageLines names :=
        congrArg (· ++ braced name.1 ++ ['\n'] ++ packageLines names) hword

theorem clash_settingNames : ∀ n ∈ settingNames, Clash n openingWord := by decide

/-- In lines that load packages, no document begins. -/
theorem packageLines_avoids (names : List Measure) (s : Text) :
    Avoids openingTag (packageLines names) s := by
  have hword : ∀ (name : Measure) (s : Text), Avoids openingTag (PageSetting.package name).text s :=
    fun name _ => (PageSetting.package name).commands.avoids (by decide) clash_settingNames
  have hend : ∀ s, Avoids openingTag ['\n'] s := fun s =>
    avoids_of_not_mem (w := openingWord) (by simp)
  induction names with
  | nil => exact True.intro
  | cons name names ih =>
    rw [packageLines_cons, avoids_append, avoids_append]
    exact ⟨⟨hword name _, hend _⟩, ih⟩

/-- In front of the tag it does not matter whether other lines follow. -/
theorem avoids_packageLines {front rest : Text} (h : Avoids openingTag front (openingTag ++ rest))
    (names : List Measure) :
    Avoids openingTag (front ++ packageLines names) (openingTag ++ rest) := by
  refine avoids_append.2 ⟨?_, packageLines_avoids names _⟩
  cases names with
  | nil => exact h
  | cons name names =>
    obtain ⟨s, hs⟩ := exists_packageLines_eq name names
    rw [hs]
    exact avoids_congr not_mem_openingWord h

theorem loadPackage_eq {front rest : Text} (h : Avoids openingTag front (openingTag ++ rest))
    {package : String} {name : Measure} (hname : name.1 = package.toList) :
    loadPackage package (front ++ (openingTag ++ rest)) =
      front ++ packageLines [name] ++ (openingTag ++ rest) := by
  obtain ⟨stop, hcut⟩ := cutFirst_opening h
  rw [loadPackage, hcut, packageLines_singleton, hname]
  simp only [Cut.replace, List.flatMap_cons, List.flatMap_nil, List.append_nil, List.append_assoc,
    List.cons_append, List.nil_append]

/-- The packages that are not loaded yet are loaded in front of the tag. -/
theorem ensurePackages_eq {front rest : Text} (h : Avoids openingTag front (openingTag ++ rest)) :
    ∃ names, ensurePackages (front ++ (openingTag ++ rest)) =
      front ++ packageLines names ++ (openingTag ++ rest) := by
  have hfold : ∀ packages : List String, (∀ package ∈ packages, package ∈ coverPackages) →
      ∀ names, ∃ names', packages.foldl (fun s package =>
        if (loadsPackage package).occursIn s then s else loadPackage package s)
          (front ++ packageLines names ++ (openingTag ++ rest)) =
            front ++ packageLines names' ++ (openingTag ++ rest) := by
    intro packages hpackages
    induction packages with
    | nil => exact fun names => ⟨names, rfl⟩
    | cons package packages ih =>
      intro names
      have hlater := ih fun p hp => hpackages p (by simp [hp])
      rw [List.foldl_cons]
      split
      · exact hlater names
      · obtain ⟨name, hname⟩ := exists_measure (hpackages package (by simp))
        rw [loadPackage_eq (avoids_packageLines h names) hname, List.append_assoc front,
          ← packageLines_append]
        exact hlater _
  have hall := hfold coverPackages (fun _ hp => hp) []
  rwa [show packageLines [] = [] from rfl, List.append_nil] at hall

/-! ## The whole document -/

/-- A document with a page: lines that load packages stand in front of the first tag that begins
it, and the page behind this tag. -/
theorem injectCoverPage_eq {page : CoverPage} (hpage : page.Textual) {spaced : Bool}
    (hspaced : page.SpacesRows → spaced = true) (henabled : (page .enabled).isTruthy = true)
    {front rest : Text} (h : Avoids openingTag front (openingTag ++ rest)) :
    ∃ names body, injectCoverPage (front ++ (openingTag ++ rest)) page =
        .ok (front ++ (packageLines names ++ (openingTag ++ (body ++ rest)))) ∧
      IsMarkup spaced body ∧ body.getLast? = some '\n' ∧
      (page.SpacesRows → spacedEnd <:+: body) := by
  obtain ⟨body, hbody, hmarkup, hend⟩ := coverBody_eq hpage hspaced
  obtain ⟨names, hnames⟩ := ensurePackages_eq h
  obtain ⟨stop, hcut⟩ := cutFirst_opening (avoids_packageLines h names)
  refine ⟨names, '\n' :: body, ?_, hmarkup, ?_,
    fun hs => (hend hs).trans (List.suffix_cons _ _).isInfix⟩
  case refine_2 => rw [List.getLast?_cons, getLast?_coverBody hbody]; rfl
  rw [injectCoverPage, if_pos henabled, hbody, hnames, hcut]
  simp [bind, Except.bind, pure, Except.pure, Cut.replace]

/-- A document without such a tag is left as it is. -/
theorem injectCoverPage_of_not_infix {page : CoverPage} (hpage : page.Textual) {latex : Text}
    (h : ¬ openingTag <:+: latex) : injectCoverPage latex page = .ok latex := by
  obtain ⟨body, hbody, -⟩ := coverBody_eq hpage fun _ => rfl
  have hcut := cutFirst_eq_of_find? (find?_opening_eq_none h)
  have hload : ∀ package, loadPackage package latex = latex := by
    intro package
    rw [loadPackage, hcut]
    rfl
  have hensure : ensurePackages latex = latex := by
    simp [ensurePackages, coverPackages, hload]
  rw [injectCoverPage, hbody, hensure, hcut]
  simp [bind, Except.bind, pure, Except.pure, Cut.replace]

end LatexPreview
