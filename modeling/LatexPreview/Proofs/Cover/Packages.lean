import Mathlib
import LatexPreview.Proofs.Cover.Signs

/-!
# Commands that load packages

A command that loads a package is looked for in the whole document.  It may begin in front of the tag
at which the document begins and end behind it, with the tag in its options or among the names of the
packages.

* `Loads`: a command that loads a package
* `occursIn_loadsPackage`: such a command is found where there is one
* `loaded_append`: a command in two texts stands in one of them, or begins in the first one with its
  options or with the names of the packages left open
-/

namespace LatexPreview

open Pattern Text

/-! ## Commands -/

/-- Each letter of a word stands for itself or for another form of it. -/
def Spelled (letters : Text) (word : Text) : Prop :=
  List.Forall₂ (fun a c => sameLetter a c = true) letters word

/-- Options in brackets, if any. -/
def IsOption (o : Text) : Prop := o = [] ∨ ∃ inside, o = '[' :: (inside ++ [']']) ∧ ']' ∉ inside

/-- The name of the package stands between braces as a whole word. -/
def Named (package : String) (inside : Text) : Prop :=
  ∃ u w v, inside = u ++ (w ++ v) ∧ Spelled package.toList w ∧
    atBoundary (u.getLast?.or (some '{')) (w ++ (v ++ ['}'])).head? = true ∧
    atBoundary (w.getLast?.or (u.getLast?.or (some '{'))) (v ++ ['}']).head? = true

/-- A command that loads a package. -/
def Loads (package : String) (m : Text) : Prop :=
  ∃ key o inside, m = key ++ (o ++ braced inside) ∧ Spelled "\\usepackage".toList key ∧ IsOption o ∧
    '}' ∉ inside ∧ Named package inside

/-- A command that loads the package stands in the text. -/
def Loaded (package : String) (s : Text) : Prop := ∃ m, m <:+: s ∧ Loads package m

/-- The name of a package consists of letters. -/
structure Lettered (package : String) : Prop where
  nonempty : package.toList ≠ []
  letters : ∀ c ∈ ['\\', '{', '}', '\n'], ∀ a ∈ package.toList, sameLetter a c = false

theorem Spelled.not_mem {letters w : Text} (hw : Spelled letters w) {c : Char}
    (hc : ∀ a ∈ letters, sameLetter a c = false) : c ∉ w := by
  intro hmem
  obtain ⟨x, y, rfl⟩ := List.append_of_mem hmem
  obtain ⟨a, l, ha, -, hl⟩ := List.forall₂_cons_right_iff.1 (List.forall₂_drop_append _ _ _ hw)
  exact absurd ha (by simp [hc a (List.mem_of_mem_drop (hl ▸ List.mem_cons_self))])

/-- The backslash is no form of a letter in the command. -/
theorem sameLetter_keyword : ∀ a ∈ "usepackage".toList, sameLetter a '\\' = false := by
  have hall : "usepackage".toList.all fun a => !sameLetter a '\\' := by decide
  intro a ha
  simpa using List.all_eq_true.1 hall a ha

section Matches

variable {package : String} (hp : Lettered package)

theorem noneOf_iff {c d : Char} {cs : String} (hcs : cs.toList = [d]) :
    (!cs.toList.contains c) = true ↔ c ≠ d := by
  simp [hcs]

theorem matches_noneOf {d : Char} {cs : String} (hcs : cs.toList = [d]) {s t : Cursor}
    (h : (many (noneOf cs)).Matches s t) : ∃ w, s.rest = w ++ t.rest ∧ d ∉ w := by
  have hover : (many (noneOf cs)).Over (· ≠ d) := fun c hc => (noneOf_iff hcs).1 hc
  obtain ⟨w, hw, hall⟩ := h.over hover
  exact ⟨w, hw, fun hmem => hall d hmem rfl⟩

theorem exists_matches_noneOf {d : Char} {cs : String} (hcs : cs.toList = [d]) {s : Cursor}
    {w r : Text} (hw : d ∉ w) (hs : s.rest = w ++ r) :
    ∃ t, (many (noneOf cs)).Matches s t ∧ t.rest = r :=
  exists_matches_many (fun _ hc => (noneOf_iff hcs).2 fun heq => hw (heq ▸ hc)) hs

theorem matches_option {s t : Cursor}
    (h : (optional (one (· == '[') ++ many (noneOf "]") ++ one (· == ']'))).Matches s t) :
    ∃ o, s.rest = o ++ t.rest ∧ IsOption o := by
  rcases h with ⟨n₂, ⟨n₁, hstart, hinside⟩, hend⟩ | rfl
  · obtain ⟨o, ho, hfree⟩ := matches_noneOf (d := ']') (by decide) hinside
    refine ⟨'[' :: (o ++ [']']), ?_, .inr ⟨o, rfl, hfree⟩⟩
    rw [matches_one_eq hstart, ho, matches_one_eq hend]
    simp
  · exact ⟨[], rfl, .inl rfl⟩

theorem exists_matches_option {s : Cursor} {o r : Text} (ho : IsOption o) (hs : s.rest = o ++ r) :
    ∃ t, (optional (one (· == '[') ++ many (noneOf "]") ++ one (· == ']'))).Matches s t ∧
      t.rest = r := by
  rcases ho with rfl | ⟨inside, rfl, hfree⟩
  · exact ⟨s, .inr rfl, hs⟩
  · have hs' : s.rest = '[' :: (inside ++ ']' :: r) := by simpa using hs
    obtain ⟨t, ht, hrest⟩ := exists_matches_noneOf (show "]".toList = [']'] from rfl)
      (s := s.next '[' (inside ++ ']' :: r)) hfree rfl
    exact ⟨t.next ']' r, .inl ⟨t, ⟨_, ⟨'[', _, hs', by simp, rfl⟩, ht⟩, ⟨']', r, hrest, by simp, rfl⟩⟩,
      rfl⟩

include hp in
theorem matches_loadsPackage {s t : Cursor} (h : (loadsPackage package).Matches s t) :
    ∃ m, s.rest = m ++ t.rest ∧ Loads package m := by
  obtain ⟨m₈, ⟨m₇, ⟨m₆, ⟨m₅, ⟨m₄, ⟨m₃, ⟨m₂, ⟨m₁, hkey, hoption⟩, hopen⟩, hfront⟩, hleft, rfl⟩, hword⟩,
    hright, rfl⟩, hback⟩, hclose⟩ := h
  obtain ⟨key, hkey, hspelled⟩ := matches_caseless hkey
  obtain ⟨o, ho, hoption⟩ := matches_option hoption
  obtain ⟨u, hu, hufree⟩ := matches_noneOf (d := '}') (by decide) hfront
  obtain ⟨w, hw, hnamed⟩ := matches_caseless hword
  obtain ⟨v, hv, hvfree⟩ := matches_noneOf (d := '}') (by decide) hback
  have hopened : m₃.before = some '{' := hopen.before_eq (w := ['{']) (matches_one_eq hopen)
  have hbefore := hfront.before_eq hu
  have hafter := hword.before_eq hw
  have hrest := matches_one_eq hclose
  rw [hv, hrest] at hw hright
  rw [hw] at hleft
  refine ⟨key ++ (o ++ braced (u ++ (w ++ v))), ?_, key, o, _, rfl, hspelled, hoption, ?_, u, w, v, rfl,
    hnamed, ?_, ?_⟩
  · rw [hkey, ho, matches_one_eq hopen, hu, hw]
    simp [braced]
  · have hwfree := Spelled.not_mem hnamed (hp.letters '}' (by simp))
    simp [hufree, hwfree, hvfree]
  · rw [hbefore, hopened] at hleft
    rw [← hleft]
    cases w <;> cases v <;> rfl
  · rw [hafter, hbefore, hopened] at hright
    rw [← hright]
    cases v <;> rfl

theorem exists_matches_loadsPackage {m r : Text} (b : Option Char) (h : Loads package m) :
    ∃ t, (loadsPackage package).Matches ⟨b, m ++ r, []⟩ t := by
  obtain ⟨key, o, inside, rfl, hkey, ho, hfree, u, w, v, rfl, hw, hleft, hright⟩ := h
  have hsplit : key ++ (o ++ braced (u ++ (w ++ v))) ++ r =
      key ++ (o ++ '{' :: (u ++ (w ++ (v ++ '}' :: r)))) := by simp [braced]
  rw [hsplit]
  have hufree : '}' ∉ u := fun hmem => hfree (List.mem_append_left _ hmem)
  have hvfree : '}' ∉ v := fun hmem => hfree (by simp [hmem])
  obtain ⟨m₁, hm₁, hr₁⟩ := exists_matches_caseless
    (s := ⟨b, key ++ (o ++ '{' :: (u ++ (w ++ (v ++ '}' :: r)))), []⟩) hkey rfl
  obtain ⟨m₂, hm₂, hr₂⟩ := exists_matches_option ho hr₁
  have hbrace : "\x7d".toList = ['}'] := rfl
  obtain ⟨m₄, hm₄, hr₄⟩ := exists_matches_noneOf hbrace
    (s := m₂.next '{' (u ++ (w ++ (v ++ '}' :: r)))) hufree rfl
  obtain ⟨m₆, hm₆, hr₆⟩ := exists_matches_caseless hw hr₄
  obtain ⟨m₈, hm₈, hr₈⟩ := exists_matches_noneOf hbrace hvfree hr₆
  have hbefore : m₄.before = u.getLast?.or (some '{') := hm₄.before_eq (by rw [hr₄]; rfl)
  have hafter : m₆.before = w.getLast?.or m₄.before := hm₆.before_eq (by rw [hr₄, hr₆])
  refine ⟨m₈.next '}' r, m₈, ⟨m₆, ⟨m₆, ⟨m₄, ⟨m₄, ⟨_, ⟨m₂, ⟨m₁, hm₁, hm₂⟩, ⟨'{', _, hr₂, by simp, rfl⟩⟩,
    hm₄⟩, ?_, rfl⟩, hm₆⟩, ?_, rfl⟩, hm₈⟩, ⟨'}', r, hr₈, by simp, rfl⟩⟩
  · rw [hbefore, hr₄, ← hleft]
    cases w <;> cases v <;> rfl
  · rw [hafter, hbefore, hr₆, ← hright]
    cases v <;> rfl

theorem steady_loadsPackage (package : String) : (loadsPackage package).Steady :=
  ⟨⟨⟨⟨⟨⟨⟨⟨steady_caseless _, ⟨⟨⟨trivial, trivial, consumes_one _⟩, trivial⟩, trivial⟩⟩, trivial⟩,
    trivial, consumes_one _⟩, trivial⟩, steady_caseless _⟩, trivial⟩, trivial, consumes_one _⟩, trivial⟩

end Matches

/-- A pattern is found in a text if it matches at some place. -/
theorem occursIn_iff {p : Pattern} (hp : p.Steady) {s : Text} :
    p.occursIn s = true ↔ ∃ x y t, s = x ++ y ∧ p.Matches ⟨x.getLast?, y, []⟩ t := by
  rw [occursIn, Pattern.find?]
  constructor
  · intro h
    obtain ⟨hit, hhit⟩ := Option.isSome_iff_exists.1 h
    obtain ⟨hs, hat, -⟩ := first?_eq_some hhit
    rw [Option.or_none] at hat
    exact ⟨hit.gap, hit.matched ++ hit.stop.rest, hit.stop, by rw [hs, List.append_assoc],
      matches_of_at? hat⟩
  · rintro ⟨x, y, t, hs, ht⟩
    by_contra hnone
    have hat := first?_eq_none (Option.not_isSome_iff_eq_none.1 hnone) hs
    have hsome := at?_isSome hp ht
    rw [Option.or_none] at hat
    exact absurd hsome (by simp [hat])

/-- A command that loads the package is found where there is one. -/
theorem occursIn_loadsPackage {package : String} (hp : Lettered package) {s : Text} :
    (loadsPackage package).occursIn s = true ↔ Loaded package s := by
  rw [occursIn_iff (steady_loadsPackage package)]
  constructor
  · rintro ⟨x, y, t, rfl, ht⟩
    obtain ⟨m, hm, hloads⟩ := matches_loadsPackage hp ht
    exact ⟨m, ⟨x, t.rest, by rw [show y = _ from hm, List.append_assoc]⟩, hloads⟩
  · rintro ⟨m, ⟨x, r, rfl⟩, hloads⟩
    obtain ⟨t, ht⟩ := exists_matches_loadsPackage (r := r) x.getLast? hloads
    exact ⟨x, m ++ r, t, by rw [List.append_assoc], ht⟩

/-! ## Commands in two texts -/

section Append

variable {package : String} (hp : Lettered package) {x y z v r : Text}

theorem Loaded.mono (h : Loaded package x) (hxy : x <:+: y) : Loaded package y := by
  obtain ⟨m, hm, hloads⟩ := h
  exact ⟨m, hm.trans hxy, hloads⟩

/-- The text ends within the options of a command that loads packages. -/
def OpenOption (x : Text) : Prop :=
  ∃ front key o, x = front ++ (key ++ '[' :: o) ∧ Spelled "\\usepackage".toList key ∧ ']' ∉ o

/-- The text goes on with the end of the options and with names that have the package among them. -/
def FinishesOption (package : String) (z : Text) : Prop :=
  ∃ o inside r, z = o ++ ']' :: (braced inside ++ r) ∧ ']' ∉ o ∧ '}' ∉ inside ∧ Named package inside

/-- The text ends behind the name of the package in a command that loads it, unless the name goes
on. -/
def OpenNames (package : String) (x : Text) : Prop :=
  ∃ front key o u, x = front ++ (key ++ (o ++ '{' :: u)) ∧ Spelled "\\usepackage".toList key ∧
    IsOption o ∧ '}' ∉ u ∧ Named package (u ++ ['\\'])

/-- The name of the package is written nowhere in the text. -/
def Unnamed (package : String) (s : Text) : Prop := ∀ w, Spelled package.toList w → ¬ w <:+: s

theorem Unnamed.not_loaded {s : Text} (h : Unnamed package s) : ¬ Loaded package s := by
  rintro ⟨m, hm, key, o, inside, rfl, -, -, -, u, w, v, rfl, hw, -⟩
  refine h w hw (List.IsInfix.trans ⟨key ++ (o ++ '{' :: u), v ++ ['}'], ?_⟩ hm)
  simp [braced]

include hp in
theorem Spelled.ne_nil {w : Text} (hw : Spelled package.toList w) : w ≠ [] := by
  rintro rfl
  exact hp.nonempty (List.forall₂_nil_right_iff.1 hw)

include hp in
/-- What follows a backslash does not matter to the name in front of it. -/
theorem Named.congr_slash {u v' : Text} (h : Named package (u ++ '\\' :: v)) (hv : Unnamed package v) :
    Named package (u ++ '\\' :: v') := by
  obtain ⟨a, w, b, hsplit, hw, hleft, hright⟩ := h
  rcases append_eq_append_cons hsplit.symm with ⟨a', rfl, hlater⟩ | ⟨e, rfl, hv'⟩
  · rcases append_eq_append_cons hlater with ⟨d, rfl, rfl⟩ | ⟨e, rfl, -⟩
    · obtain ⟨c, w, rfl⟩ := List.exists_cons_of_ne_nil (hw.ne_nil hp)
      refine ⟨a, c :: w, d ++ '\\' :: v', by simp, hw, hleft, ?_⟩
      rw [← hright]
      cases d <;> rfl
    · exact absurd (by simp) (hw.not_mem (hp.letters '\\' (by simp)))
  · exact absurd ⟨e, b, by rw [hv', List.append_assoc]⟩ (hv w hw)

/-- Options that a backslash cuts in two are open in front of it, and they are finished behind it. -/
theorem IsOption.open_of_cut {front key o a inside rest : Text} (ho : IsOption (o ++ '\\' :: a))
    (hkey : Spelled "\\usepackage".toList key) (hinside : '}' ∉ inside)
    (hnamed : Named package inside) : OpenOption (front ++ (key ++ o)) ∧
      FinishesOption package ('\\' :: a ++ (braced inside ++ rest)) := by
  rcases ho with hnil | ⟨written, hwritten, hfree⟩
  · exact absurd hnil (by simp)
  -- The backslash is neither the bracket that opens the options nor the one that closes them.
  cases o with
  | nil => exact absurd (List.cons.inj hwritten).1 (by decide)
  | cons c o =>
    obtain ⟨rfl, hinner⟩ := List.cons.inj hwritten
    rcases append_eq_append_cons hinner with ⟨later, rfl, hend⟩ | ⟨_, -, hend⟩
    case inr => exact absurd hend (by simp)
    cases later with
    | nil => exact absurd (List.cons.inj hend).1 (by decide)
    | cons d later =>
      obtain ⟨rfl, rfl⟩ := List.cons.inj hend
      refine ⟨⟨front, key, o, rfl, hkey, fun hmem => hfree (by simp [hmem])⟩,
        '\\' :: later, inside, rest, by simp, fun hmem => hfree (List.mem_append_right _ hmem),
        hinside, hnamed⟩

/-- Options that are open at the end of a text belong to a command that is finished behind it. -/
theorem OpenOption.loaded_append (hx : OpenOption x) (hfinishes : FinishesOption package z) :
    Loaded package (x ++ z) := by
  obtain ⟨front, key, o, rfl, hkey, hfree⟩ := hx
  obtain ⟨o', inside, rest, rfl, hfree', hinside, hnamed⟩ := hfinishes
  refine ⟨key ++ ('[' :: ((o ++ o') ++ [']']) ++ braced inside), ⟨front, rest, by simp⟩, key, _, inside,
    rfl, hkey, .inr ⟨o ++ o', rfl, ?_⟩, hinside, hnamed⟩
  simp [hfree, hfree']

include hp in
/-- So do names that are open there. -/
theorem OpenNames.loaded_append (hx : OpenNames package x) (hfree : '}' ∉ v) :
    Loaded package (x ++ '\\' :: (v ++ '}' :: r)) := by
  obtain ⟨front, key, o, u, rfl, hkey, ho, hufree, hnamed⟩ := hx
  have hnone : Unnamed package [] := fun w hw hi => hw.ne_nil hp (List.infix_nil.1 hi)
  refine ⟨key ++ (o ++ braced (u ++ '\\' :: v)), ⟨front, r, by simp [braced]⟩, key, o, _, rfl, hkey,
    ho, ?_, hnamed.congr_slash hp hnone⟩
  simp [hufree, hfree]

include hp in
/-- A command in two texts, the second of which starts with a backslash and has other names in front
of its first closing brace, stands in one of them, or it begins in the first one and has its options
or the names of the packages open there. -/
theorem Loaded.append_cases (h : Loaded package (x ++ '\\' :: (v ++ '}' :: r))) (hfree : '}' ∉ v)
    (hv : Unnamed package v) :
    Loaded package x ∨ Loaded package ('\\' :: (v ++ '}' :: r)) ∨
      OpenOption x ∧ FinishesOption package ('\\' :: (v ++ '}' :: r)) ∨ OpenNames package x := by
  obtain ⟨m, ⟨f, e, hsplit⟩, key, o, inside, rfl, hkey, ho, hinside, hnamed⟩ := h
  have hm : Loads package (key ++ (o ++ braced inside)) :=
    ⟨key, o, inside, rfl, hkey, ho, hinside, hnamed⟩
  have hsplit : f ++ (key ++ (o ++ '{' :: (inside ++ '}' :: e))) = x ++ '\\' :: (v ++ '}' :: r) := by
    rw [← hsplit]
    simp [braced]
  have hbehind : ∀ a z, a ++ (key ++ (o ++ '{' :: (inside ++ '}' :: e))) = z → Loaded package z :=
    fun a z ha => ⟨_, ⟨a, e, by simp [← ha, braced]⟩, hm⟩
  -- The border lies behind the command word, behind the options and behind the opening brace, or
  -- in the part that is looked at.
  rcases append_eq_append_cons hsplit with ⟨x₁, rfl, h₁⟩ | ⟨a, -, ha⟩
  case inr => exact .inr (.inl (hbehind ('\\' :: a) _ (by rw [ha]; rfl)))
  rcases append_eq_append_cons h₁ with ⟨x₂, rfl, h₂⟩ | ⟨a, hcut, -⟩
  case inr =>
    cases x₁ with
    | nil => exact .inr (.inl (hbehind [] _ h₁))
    | cons c x₁ =>
      rw [hcut] at hkey
      have hletters : Spelled "usepackage".toList (x₁ ++ '\\' :: a) := (List.forall₂_cons.1 hkey).2
      exact absurd (by simp) (hletters.not_mem sameLetter_keyword)
  rcases append_eq_append_cons h₂ with ⟨x₃, rfl, h₃⟩ | ⟨a, rfl, ha⟩
  case inr =>
    have hcut : OpenOption (f ++ (key ++ x₂)) ∧
        FinishesOption package ('\\' :: a ++ (braced inside ++ e)) :=
      ho.open_of_cut hkey hinside hnamed
    rw [ha]
    exact .inr (.inr (.inl (by simpa [braced] using hcut)))
  cases x₃ with
  | nil => exact absurd (List.cons.inj h₃).1 (by decide)
  | cons c u =>
    obtain ⟨rfl, h₄⟩ := List.cons.inj h₃
    rcases append_eq_append_cons h₄ with ⟨x₅, rfl, h₅⟩ | ⟨a, rfl, ha⟩
    · cases x₅ with
      | nil => exact absurd (List.cons.inj h₅).1 (by decide)
      | cons d x₆ =>
        obtain ⟨rfl, -⟩ := List.cons.inj h₅
        exact .inl ⟨_, ⟨f, x₆, by simp [braced]⟩, hm⟩
    · have hafree : '}' ∉ a := fun hmem => hinside (by simp [hmem])
      obtain ⟨rfl, -⟩ := eq_of_append_cons_eq hfree hafree ha
      exact .inr (.inr (.inr ⟨f, key, o, u, rfl, hkey, ho, fun hmem => hinside (by simp [hmem]),
        hnamed.congr_slash hp hv⟩))

include hp in
theorem loaded_append (hz : z = '\\' :: (v ++ '}' :: r)) (hfree : '}' ∉ v) (hv : Unnamed package v) :
    Loaded package (x ++ z) ↔ Loaded package x ∨ Loaded package z ∨
      OpenOption x ∧ FinishesOption package z ∨ OpenNames package x := by
  subst hz
  refine ⟨fun h => h.append_cases hp hfree hv, ?_⟩
  rintro (h | h | ⟨hopen, hfinishes⟩ | h)
  · exact h.mono (List.prefix_append _ _).isInfix
  · exact h.mono (List.suffix_append _ _).isInfix
  · exact hopen.loaded_append hfinishes
  · exact h.loaded_append hp hfree

end Append

end LatexPreview
