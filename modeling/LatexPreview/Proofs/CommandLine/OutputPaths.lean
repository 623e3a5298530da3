import Mathlib
import LatexPreview.CommandLine.Program

/-!
# Where the output goes

Without other instructions the page lies beside the source, and the compiled document beside the page:
in the same directory, under the same name with another extension.  The extension is cut off at the
last dot of the whole path, though, and this need not be a dot of the name.

* `Path.HasExtension`, `Path.Renamed`: names with an extension, and with another one
* `Path.Beside`: a path in the same directory, whose name differs in its extension
* `Path.beside_withExtension_iff`: a path with its extension replaced is beside the old one if and
  only if its last dot is in its name
* `outputs_beside_iff`: so it is for the page and for the compiled document
-/

namespace LatexPreview

/-! ## The last mark in a text -/

namespace Text

variable {sep : Char} {s front back : Text}

theorem splitLast?_eq_none_iff : s.splitLast? sep = none ↔ sep ∉ s := by
  induction s with
  | nil => simp [splitLast?]
  | cons c s ih =>
    rw [splitLast?, List.mem_cons, not_or, ← ih]
    cases splitLast? sep s with
    | none => simp [eq_comm]
    | some parts => simp

theorem splitLast?_eq_some_iff :
    s.splitLast? sep = some (front, back) ↔ s = front ++ sep :: back ∧ sep ∉ back := by
  induction s generalizing front back with
  | nil => simp [splitLast?]
  | cons c s ih =>
    rw [splitLast?]
    cases hs : splitLast? sep s with
    | none =>
      have hnone := splitLast?_eq_none_iff.1 hs
      constructor
      · intro h
        by_cases hc : c = sep
        · obtain ⟨rfl, rfl⟩ : [] = front ∧ s = back := by simpa [hc] using h
          exact ⟨by rw [hc]; rfl, hnone⟩
        · simp [hc] at h
      · rintro ⟨heq, hback⟩
        cases front with
        | nil =>
          obtain ⟨rfl, rfl⟩ := List.cons.inj heq
          simp
        | cons d front =>
          obtain ⟨-, rfl⟩ := List.cons.inj heq
          exact absurd (by simp) hnone
    | some parts =>
      obtain ⟨before, after⟩ := parts
      obtain ⟨hsplit, hafter⟩ := ih.1 hs
      constructor
      · intro h
        obtain ⟨rfl, rfl⟩ : c :: before = front ∧ after = back := by simpa using h
        exact ⟨by rw [hsplit]; rfl, hafter⟩
      · rintro ⟨heq, hback⟩
        cases front with
        | nil =>
          obtain ⟨-, rfl⟩ := List.cons.inj heq
          exact absurd (by simp [hsplit]) hback
        | cons d front =>
          obtain ⟨rfl, hlater⟩ := List.cons.inj heq
          obtain ⟨rfl, rfl⟩ := Prod.mk.inj (Option.some.inj (hs.symm.trans (ih.2 ⟨hlater, hback⟩)))
          rfl

/-- A text with a mark is cut at its last one. -/
theorem exists_last (h : sep ∈ s) : ∃ front back, s = front ++ sep :: back ∧ sep ∉ back := by
  obtain ⟨⟨front, back⟩, hsplit⟩ := Option.ne_none_iff_exists'.1
    (mt splitLast?_eq_none_iff.1 (not_not_intro h))
  exact ⟨front, back, splitLast?_eq_some_iff.1 hsplit⟩

/-- A text is cut at its last mark in one way only. -/
theorem eq_of_last {front' back' : Text} (hback : sep ∉ back) (hback' : sep ∉ back')
    (h : front ++ sep :: back = front' ++ sep :: back') : front = front' ∧ back = back' := by
  have hsplit : (front ++ sep :: back).splitLast? sep = some (front, back) :=
    splitLast?_eq_some_iff.2 ⟨rfl, hback⟩
  have hsplit' : (front' ++ sep :: back').splitLast? sep = some (front', back') :=
    splitLast?_eq_some_iff.2 ⟨rfl, hback'⟩
  rw [h] at hsplit
  exact Prod.mk.inj (Option.some.inj (hsplit.symm.trans hsplit'))

end Text

namespace Path

variable {path front name : Text}

/-! ## Directories and names -/

/-- What stands in front of a name: nothing, or a text that ends in a slash. -/
def EndsInSlash (front : Text) : Prop := front = [] ∨ ∃ rest, front = rest ++ ['/']

theorem name_append (hfront : EndsInSlash front) (hname : '/' ∉ name) :
    Path.name (front ++ name) = name := by
  rcases hfront with rfl | ⟨rest, rfl⟩
  · exact name_of_no_slash hname
  · have hsplit : (rest ++ ['/'] ++ name).splitLast? '/' = some (rest, name) :=
      Text.splitLast?_eq_some_iff.2 ⟨by simp, hname⟩
    rw [Path.name, hsplit]

theorem directory_append (hfront : EndsInSlash front) (hname : '/' ∉ name) :
    directory (front ++ name) = withoutSlashes front := by
  rcases hfront with rfl | ⟨rest, rfl⟩
  · rw [directory, List.nil_append, Text.splitLast?_eq_none_iff.2 hname]
    rfl
  · have hsplit : (rest ++ ['/'] ++ name).splitLast? '/' = some (rest, name) :=
      Text.splitLast?_eq_some_iff.2 ⟨by simp, hname⟩
    rw [directory, hsplit]

/-- A path is a name behind the last slash. -/
theorem exists_front (path : Text) : ∃ front, EndsInSlash front ∧ path = front ++ Path.name path ∧
    '/' ∉ Path.name path := by
  cases hsplit : path.splitLast? '/' with
  | none =>
    have hpath := Text.splitLast?_eq_none_iff.1 hsplit
    rw [name_of_no_slash hpath]
    exact ⟨[], .inl rfl, rfl, hpath⟩
  | some parts =>
    obtain ⟨rest, last⟩ := parts
    obtain ⟨hpath, hlast⟩ := Text.splitLast?_eq_some_iff.1 hsplit
    have hname : Path.name path = last := by rw [Path.name, hsplit]
    rw [hname]
    exact ⟨rest ++ ['/'], .inr ⟨rest, rfl⟩, by simpa using hpath, hlast⟩

theorem length_withoutSlashes_le (path : Text) : (withoutSlashes path).length ≤ path.length := by
  rw [withoutSlashes]
  split
  · exact le_rfl
  · rw [List.length_reverse]
    exact (List.dropWhile_suffix _).length_le.trans_eq List.length_reverse

/-- No more than the slashes at the end of a path are cut off. -/
theorem length_lt_withoutSlashes {c : Char} (hc : c ≠ '/') (front back : Text) :
    front.length < (withoutSlashes (front ++ c :: back)).length := by
  have hall : ¬ (front ++ c :: back).all (· == '/') = true := by simp [hc]
  have hsuffix : c :: front.reverse <:+ (back.reverse ++ c :: front.reverse).dropWhile (· == '/') := by
    rw [List.dropWhile_append]
    split
    · rw [List.dropWhile_cons_of_neg (by simpa using hc)]
    · exact List.suffix_append _ _
  have hreverse : (front ++ c :: back).reverse = back.reverse ++ c :: front.reverse := by simp
  rw [withoutSlashes, if_neg hall, hreverse, List.length_reverse]
  simpa using hsuffix.length_le

/-! ## Extensions -/

/-- A name with a stem in front of its last dot, and an extension behind it.  Where a name that is
hidden by a dot has no extension, not every text is a stem. -/
def HasExtension (isStem : Text → Prop) (name : Text) : Prop :=
  ∃ stem extension, isStem stem ∧ '.' ∉ extension ∧ name = stem ++ '.' :: extension

/-- The second name is the first one with another extension; if it has none, it is added. -/
inductive Renamed (isStem : Text → Prop) (new : Text) : Text → Text → Prop
  | replaced {stem old : Text} (hstem : isStem stem) (hold : '.' ∉ old) :
      Renamed isStem new (stem ++ '.' :: old) (stem ++ new)
  | added {name : Text} (hname : ¬ HasExtension isStem name) :
      Renamed isStem new name (name ++ new)

/-- The second path lies in the directory of the first one, and its name is that of the first one
with another extension. -/
structure Beside (isStem : Text → Prop) (new path other : Text) : Prop where
  directory_eq : directory other = directory path
  renamed : Renamed isStem new (Path.name path) (Path.name other)

section Extension

variable {isStem : Text → Prop} {stem old new : Text}

theorem hasExtension_iff (hold : '.' ∉ old) :
    HasExtension isStem (stem ++ '.' :: old) ↔ isStem stem := by
  constructor
  · rintro ⟨stem', old', hstem, hold', heq⟩
    obtain ⟨rfl, -⟩ := Text.eq_of_last hold hold' heq
    exact hstem
  · exact fun hstem => ⟨stem, old, hstem, hold, rfl⟩

theorem not_hasExtension (hname : '.' ∉ name) : ¬ HasExtension isStem name := by
  rintro ⟨stem, old, -, -, rfl⟩
  exact hname (by simp)

/-- What stands behind the last dot has been replaced if and only if it is an extension. -/
theorem renamed_iff (hold : '.' ∉ old) :
    Renamed isStem new (stem ++ '.' :: old) (stem ++ new) ↔ isStem stem := by
  constructor
  · intro h
    generalize hname : stem ++ '.' :: old = name at h
    generalize hother : stem ++ new = other at h
    cases h with
    | replaced hstem hold' =>
      obtain ⟨rfl, -⟩ := Text.eq_of_last hold hold' hname
      exact hstem
    | added =>
      obtain rfl := List.append_cancel_right hother
      simp at hname
  · exact fun hstem => .replaced hstem hold

theorem withoutExtension_append (hold : '.' ∉ old) : withoutExtension (stem ++ '.' :: old) = stem := by
  rw [withoutExtension, Text.splitLast?_eq_some_iff.2 ⟨rfl, hold⟩]

theorem withoutExtension_of_not_mem (hpath : '.' ∉ path) : withoutExtension path = path := by
  rw [withoutExtension, Text.splitLast?_eq_none_iff.2 hpath]

/-- If a dot is found in a directory only, the new path lies in another directory. -/
theorem directory_ne (hnew : '/' ∉ new) (hfront : EndsInSlash front) (hname : '/' ∉ name)
    (hpath : front = stem ++ '.' :: old) : directory (stem ++ new) ≠ directory (front ++ name) := by
  obtain ⟨rest, hrest, hstem, hlast⟩ := exists_front stem
  have hother : directory (stem ++ new) = withoutSlashes rest := by
    rw [hstem, List.append_assoc]
    exact directory_append hrest (by simp [hlast, hnew])
  have hshort : (withoutSlashes rest).length ≤ stem.length := by
    refine (length_withoutSlashes_le rest).trans ?_
    rw [congrArg List.length hstem, List.length_append]
    exact Nat.le_add_right _ _
  rw [hother, directory_append hfront hname, hpath]
  intro heq
  have hlong := length_lt_withoutSlashes (c := '.') (by decide) stem old
  rw [← heq] at hlong
  omega

/-- A path with its extension replaced lies beside the old one if and only if its name has an
extension, or there is no dot in the whole path. -/
theorem beside_withExtension_iff (isStem : Text → Prop) {new : String} (hnew : '/' ∉ new.toList)
    (path : Text) : Beside isStem new.toList path (withExtension path new) ↔
      HasExtension isStem (Path.name path) ∨ '.' ∉ path := by
  obtain ⟨front, hfront, hpath, hname⟩ := exists_front path
  generalize Path.name path = name at hpath hname
  subst hpath
  have hwhole : ∀ other, '/' ∉ other → (Beside isStem new.toList (front ++ name) (front ++ other) ↔
      Renamed isStem new.toList name other) := by
    intro other hother
    have hnames := name_append hfront hname
    constructor
    · rintro ⟨-, hrenamed⟩
      rwa [hnames, name_append hfront hother] at hrenamed
    · intro hrenamed
      refine ⟨by rw [directory_append hfront hname, directory_append hfront hother], ?_⟩
      rwa [hnames, name_append hfront hother]
  by_cases hdot : '.' ∈ name
  · obtain ⟨stem, old, rfl, hold⟩ := Text.exists_last hdot
    have hstem : '/' ∉ stem := fun h => hname (by simp [h])
    rw [withExtension, ← List.append_assoc, withoutExtension_append hold, List.append_assoc,
      List.append_assoc, hwhole _ (by simp [hstem, hnew]), renamed_iff hold, hasExtension_iff hold]
    simp
  · by_cases hdirectory : '.' ∈ front
    · obtain ⟨stem, old, hsplit, hold⟩ := Text.exists_last hdirectory
      have hbehind : '.' ∉ old ++ name := by simp [hold, hdot]
      have hother : withExtension (front ++ name) new = stem ++ new.toList := by
        rw [withExtension, hsplit, List.append_assoc, List.cons_append,
          withoutExtension_append hbehind]
      rw [hother]
      refine iff_of_false (fun h => directory_ne hnew hfront hname hsplit h.directory_eq) ?_
      simp [not_hasExtension hdot, hdirectory]
    · have hnone : '.' ∉ front ++ name := by simp [hdot, hdirectory]
      rw [withExtension, withoutExtension_of_not_mem hnone, List.append_assoc,
        hwhole _ (by simp [hname, hnew])]
      exact iff_of_true (.added (not_hasExtension hdot)) (.inr hnone)

end Extension

end Path

/-! ## The page and the compiled document -/

/-- Where no other file is asked for, the page lies beside the source, and the compiled document beside
the page, if and only if the name of the source, or of the page, has an extension or there is no dot
in the whole path. -/
theorem outputs_beside_iff (isStem : Text → Prop) (files : Files) (args : Arguments)
    (cover : Option CoverPage) (s : BuildSettings) (houtput : args.options.output = [])
    (hpdf : s.pdf = []) :
    let source := Path.absolute files.herePath args.input
    let page := (settingsFor files args cover).target
    (Path.Beside isStem ".html".toList source page ↔
      Path.HasExtension isStem (Path.name source) ∨ '.' ∉ source) ∧
    (Path.Beside isStem ".pdf".toList s.target s.outputPdf ↔
      Path.HasExtension isStem (Path.name s.target) ∨ '.' ∉ s.target) := by
  intro source page
  have hpage : page = Path.withExtension source ".html" := by
    dsimp only [page, settingsFor, targetFor]
    rw [houtput]
    rfl
  have hdocument : s.outputPdf = Path.withExtension s.target ".pdf" := by
    rw [BuildSettings.outputPdf, hpdf]
    rfl
  rw [hpage, hdocument]
  exact ⟨Path.beside_withExtension_iff isStem (by decide) source,
    Path.beside_withExtension_iff isStem (by decide) s.target⟩

/-- Dots in a directory and in a stem are left alone, if there is an extension.  Here a name that is
hidden by a dot would have none. -/
theorem outputs_beside_hidden_directory :
    let isStem : Text → Prop := fun stem => ∃ c ∈ stem, c ≠ '.'
    let files : Files := ⟨[['W']], []⟩
    let args : Arguments := ⟨".d/a.b.tex".toList, {}⟩
    let s := settingsFor files args none
    args.options.output = [] ∧ s.pdf = [] ∧
      Path.Beside isStem ".html".toList "/W/.d/a.b.tex".toList s.target ∧
      Path.Beside isStem ".pdf".toList s.target s.outputPdf := by
  intro isStem files args s
  obtain ⟨hpage, hdocument⟩ := outputs_beside_iff isStem files args none s rfl rfl
  have hstem : isStem "a.b".toList := ⟨'a', by decide, by decide⟩
  exact ⟨rfl, rfl, hpage.2 (.inl ⟨"a.b".toList, "tex".toList, hstem, by decide, by decide⟩),
    hdocument.2 (.inl ⟨"a.b".toList, "html".toList, hstem, by decide, by decide⟩)⟩

/-- A source without an extension, in a directory whose name has a dot: the page and the compiled
document are taken out of the directory, under its name. -/
theorem dotted_directory_loses_outputs :
    let files : Files := ⟨[['W']], []⟩
    let args : Arguments := ⟨"d.x/doc".toList, {}⟩
    let source := Path.absolute files.herePath args.input
    let s := settingsFor files args none
    parseArguments ["d.x/doc".toList] = .ok args ∧
      s.target = "/W/d.html".toList ∧ Path.directory s.target ≠ Path.directory source ∧
      let s := { s with target := source }
      s.outputPdf = "/W/d.pdf".toList ∧ Path.directory s.outputPdf ≠ Path.directory source := by
  refine ⟨rfl, by decide, by decide, by decide, by decide⟩

end LatexPreview
