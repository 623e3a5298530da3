import Mathlib
import LatexPreview.Convert.MathLift
import LatexPreview.MathText.Delimiters
import LatexPreview.Proofs.Pattern.Environment

/-!
# Math without its delimiters

The delimiters of math are read twice: when spans are lifted, each kind by a pattern of its own, and
when a source is turned into an element, all kinds by one pattern, which lets blanks stand around the
math and either tag of an environment have a star.  Both readings agree.

* `framed` is anything between two delimiters, `delimitedForms` are the forms of delimited math
* `exists_whole?_delimitedMath`: the first form that matches a whole source is taken
* `matches_mathEnvironment`, `matches_anyEnvironment`: what an environment is made of, in either way
  of reading it
* `anyEnvironment_reads`: it has one name and one body only
* `splitDelimiters_whole`: what is left of a span is its body, and displayed spans are told from
  those within a line
-/

namespace LatexPreview

open Text

namespace Pattern

/-! ## Running to the end of a text -/

/-- Accepts the end of the text. -/
def atEnd : Accept := fun t => if t.rest.isEmpty then some t else none

theorem atEnd_eq_some {s t : Cursor} (h : atEnd s = some t) : t = s ∧ s.rest = [] := by
  rw [atEnd] at h
  split at h
  · rename_i hempty
    exact ⟨(Option.some.inj h).symm, List.isEmpty_iff.1 hempty⟩
  · exact absurd h (by simp)

/-- A match that reaches to the end is found, whether or not blanks may follow. -/
theorem run_blanks_isSome {p : Pattern} (hp : p.Steady) {s t : Cursor} (h : p.Matches s t)
    (ht : t.rest = []) : ((p ++ many (one isBlank)).run s atEnd).isSome = true := by
  have hsteady : (p ++ many (one isBlank)).Steady := ⟨hp, trivial, consumes_one _⟩
  exact run_complete hsteady ⟨t, h, .refl⟩ (by simp [atEnd, ht])

/-- If the text does not end with a blank, then the match itself reaches to the end. -/
theorem matches_of_run_blanks {p : Pattern} {s t : Cursor} {c : Char}
    (hlast : s.rest.getLast? = some c) (hc : isBlank c = false)
    (h : (p ++ many (one isBlank)).run s atEnd = some t) : p.Matches s t ∧ t.rest = [] := by
  obtain ⟨t', ⟨m, hm, hblanks⟩, hend⟩ := run_sound h
  obtain ⟨rfl, ht⟩ := atEnd_eq_some hend
  obtain ⟨u, hu⟩ := hm.exists_append
  have hover : (many (one isBlank)).Over fun c => isBlank c = true := fun c hc => hc
  obtain ⟨w, hw, hall⟩ := hblanks.over hover
  rw [ht, List.append_nil] at hw
  have hnone : w = [] := by
    rcases List.eq_nil_or_concat w with hnil | ⟨x, d, rfl⟩
    · exact hnil
    · rw [hu, hw, List.concat_eq_append, ← List.append_assoc, List.getLast?_concat] at hlast
      have hd := hall d (by simp)
      rw [Option.some.inj hlast, hc] at hd
      exact absurd hd (by simp)
  rcases Relation.ReflTransGen.cases_head hblanks with rfl | ⟨n, ⟨d, r, hd, -, -⟩, -⟩
  · exact ⟨hm, ht⟩
  · exact absurd (hd.symm.trans (hw.trans hnone)) (by simp)

/-! ## Anything between two delimiters -/

/-- Anything between two delimiters, kept under a label. -/
def framed (o : Text) (label : String) (c : Text) : Pattern :=
  lit o ++ capture label (fewest any) ++ lit c

section Framed

variable {o c w r : Text} {label : String} {s t : Cursor}

theorem matches_framed (h : (framed o label c).Matches s t) :
    ∃ w, s.rest = o ++ (w ++ (c ++ t.rest)) ∧
      t.slots = (label, w ++ (c ++ t.rest), c ++ t.rest) :: s.slots := by
  obtain ⟨m, ⟨n, hopen, hinside⟩, hclose⟩ := h
  obtain ⟨w, hw, hslots, -⟩ := matches_capture (p := fewest any) trivial hinside
  rw [matches_lit hclose] at hw hslots
  exact ⟨w, by rw [matches_lit hopen, hw],
    by rw [hclose.slots_eq (bare_lit c), hslots, hopen.slots_eq (bare_lit o)]⟩

theorem exists_matches_framed (label : String) (hs : s.rest = o ++ (w ++ (c ++ r))) :
    ∃ t, (framed o label c).Matches s t ∧ t.rest = r := by
  obtain ⟨m, hopen, hm⟩ := exists_matches_lit hs
  have hany : ∀ d ∈ w, (fun _ : Char => true) d = true := fun _ _ => rfl
  obtain ⟨n, hinside, hn⟩ := exists_matches_many hany hm
  obtain ⟨t, hclose, ht⟩ := exists_matches_lit (w := c) (r := r)
    (s := { n with slots := (label, m.rest, n.rest) :: n.slots }) hn
  exact ⟨t, ⟨_, ⟨m, hopen, n, hinside, rfl⟩, hclose⟩, ht⟩

theorem steady_framed (o c : Text) (label : String) : (framed o label c).Steady :=
  ⟨⟨steady_lit o, trivial, consumes_one _⟩, steady_lit c⟩

theorem run_framed_eq_none (h : ¬ o <+: s.rest) (k : Accept) : (framed o label c).run s k = none :=
  run_lit_eq_none h _

end Framed

end Pattern

open Pattern

/-! ## Forms of delimited math -/

/-- The forms of math with delimiters, in the order in which they are tried. -/
def delimitedForms : List Pattern :=
  [framed "$$".toList "dollars" "$$".toList, framed "\\[".toList "brackets" "\\]".toList,
    framed "\\(".toList "parens" "\\)".toList, framed "$".toList "dollar" "$".toList, anyEnvironment]

/-- A source without blanks at its ends is read in the first form that matches all of it. -/
theorem exists_whole?_delimitedMath {source : Text} {d e : Char} (hfirst : source.head? = some d)
    (hd : isBlank d = false) (hlast : source.getLast? = some e) (he : isBlank e = false)
    (before : List Pattern) {after : List Pattern} {p : Pattern}
    (hforms : delimitedForms = before ++ p :: after)
    (hbefore : ∀ q ∈ before, ∀ k, q.run ⟨none, source, []⟩ k = none) (hp : p.Steady) {t : Cursor}
    (ht : p.Matches ⟨none, source, []⟩ t) (hend : t.rest = []) :
    ∃ stop, delimitedMath.whole? source = some stop ∧ p.Matches ⟨none, source, []⟩ stop ∧
      stop.rest = [] := by
  let k : Accept := fun t => (many (one isBlank)).run t atEnd
  have hleading : delimitedMath.whole? source = (anyOf delimitedForms).run ⟨none, source, []⟩ k := by
    have hrun : delimitedMath.whole? source =
        greedily (one isBlank).run source.length ⟨none, source, []⟩ fun t =>
          (anyOf delimitedForms).run t k := rfl
    cases source with
    | nil => exact absurd hfirst (by simp)
    | cons c r =>
      obtain rfl : c = d := Option.some.inj hfirst
      rw [hrun, List.length_cons, greedily, run]
      simp [hd]
  have hfound : (p.run ⟨none, source, []⟩ k).isSome = true := run_blanks_isSome hp ht hend
  obtain ⟨stop, hstop⟩ := Option.isSome_iff_exists.1 hfound
  refine ⟨stop, ?_, matches_of_run_blanks hlast he hstop⟩
  have hnone : before.findSome? (fun q => q.run ⟨none, source, []⟩ k) = none :=
    List.findSome?_eq_none_iff.2 fun q hq => hbefore q hq k
  rw [hleading, run_anyOf (by simp [delimitedForms]), hforms, List.findSome?_append, hnone,
    List.findSome?_cons, hstop]
  rfl

/-! ## Environments -/

section Environments

variable {s t : Cursor}

/-- The star that may stand behind the name of an environment. -/
def stars : List Text := [[], ['*']]

theorem matches_star (h : (optional (one (· == '*'))).Matches s t) :
    ∃ star ∈ stars, s.rest = star ++ t.rest := by
  rcases h with h | h
  · exact ⟨['*'], by simp [stars], matches_one_eq h⟩
  · exact ⟨[], by simp [stars], by rw [show t = s from h]; rfl⟩

theorem matches_anyOf {ps : List Pattern} (h : (anyOf ps).Matches s t) :
    ∃ p ∈ ps, p.Matches s t := by
  induction ps with
  | nil =>
    obtain ⟨c, r, -, hc, -⟩ := h
    exact absurd hc (by simp)
  | cons p ps ih =>
    cases ps with
    | nil => exact ⟨p, by simp, h⟩
    | cons q ps =>
      rcases h with h | h
      · exact ⟨p, by simp, h⟩
      · obtain ⟨x, hx, hm⟩ := ih h
        exact ⟨x, List.mem_cons_of_mem _ hx, hm⟩

theorem matches_nameAmong {names : List Text} (hnames : names ≠ [])
    (h : (nameAmong names).Matches s t) : ∃ n ∈ names, s.rest = n ++ t.rest := by
  obtain ⟨n, ns, rfl⟩ := List.exists_cons_of_ne_nil hnames
  have hany : (anyOf ((n :: ns).map lit)).Matches s t := h
  obtain ⟨p, hp, hm⟩ := matches_anyOf hany
  obtain ⟨m, hmem, rfl⟩ := List.mem_map.1 hp
  exact ⟨m, hmem, matches_lit hm⟩

/-- The tag that closes an environment repeats the name that has been kept. -/
theorem matches_again {label : String} {name : Text} (h : (again label).Matches s t)
    (hname : s.get? label = some name) : s.rest = name ++ t.rest ∧ t.slots = s.slots := by
  obtain ⟨word, r, hword, hrest, rfl⟩ := h
  obtain rfl : word = name := Option.some.inj (hword.symm.trans hname)
  exact ⟨hrest, rfl⟩

/-- What was kept under another label before. -/
theorem get?_of_slots_below {label other : String} (hne : label ≠ other) {x y w r : Text}
    {more : List (String × Text × Text)} (h : t.slots = (other, x, y) :: (label, w ++ r, r) :: more) :
    t.get? label = some w := by
  have hne' : (label == other) = false := by simpa using hne
  simp [Cursor.get?, h, List.lookup, hne', between_append]

/-- An environment of displayed math is one name in two tags, with the body between them. -/
theorem matches_mathEnvironment {names : List Text} (hnames : names ≠ [])
    (h : (mathEnvironment names).Matches s t) : ∃ n ∈ names, ∃ star ∈ stars, ∃ w,
      s.rest = beginTag (n ++ star) ++ (w ++ (endTag (n ++ star) ++ t.rest)) ∧
        t.get? "env" = some (n ++ star) ∧ t.get? "body" = some w := by
  obtain ⟨m₈, ⟨m₇, ⟨m₆, ⟨m₅, ⟨m₄, ⟨m₃, ⟨m₂, ⟨m₁, hbegin, hopen⟩, hcapture⟩, hnamed⟩, hbody⟩,
    hend⟩, hopen'⟩, hagain⟩, hclose⟩ := h
  obtain ⟨n₁, ⟨n₂, hname, hstar⟩, rfl⟩ := hcapture
  obtain ⟨n, hn, hname⟩ := matches_nameAmong hnames hname
  obtain ⟨star, hmem, hstar⟩ := matches_star hstar
  have hkept : m₂.rest = (n ++ star) ++ n₁.rest := by rw [hname, hstar, List.append_assoc]
  have hnamed' : n₁.rest = '}' :: m₄.rest :=
    matches_one_eq (s := { n₁ with slots := ("env", m₂.rest, n₁.rest) :: n₁.slots }) hnamed
  obtain ⟨w, hw, hslots, -⟩ := matches_capture (p := fewest any) trivial hbody
  rw [hnamed.slots_eq (p := one _) trivial, hkept] at hslots
  rw [← hend.slots_eq (bare_lit _), ← hopen'.slots_eq (p := one _) trivial] at hslots
  have henv : m₇.get? "env" = some (n ++ star) := get?_of_slots_below (by decide) hslots
  obtain ⟨hagain, hslots'⟩ := matches_again hagain henv
  rw [← hslots', ← hclose.slots_eq (p := one _) trivial] at hslots
  refine ⟨n, hn, star, hmem, w, ?_, get?_of_slots_below (by decide) hslots, get?_of_slots hslots⟩
  rw [matches_lit hbegin, matches_one_eq hopen, hkept, hnamed', hw, matches_lit hend,
    matches_one_eq hopen', hagain, matches_one_eq hclose]
  simp [beginTag, endTag, braced]

/-- An environment of any name is that name in two tags, where either may have a star. -/
theorem matches_anyEnvironment (h : anyEnvironment.Matches s t) :
    ∃ n, (∀ c ∈ n, c.isLower = true) ∧ ∃ star ∈ stars, ∃ star' ∈ stars, ∃ w,
      s.rest = beginTag (n ++ star) ++ (w ++ (endTag (n ++ star') ++ t.rest)) ∧
        t.get? "env" = some n ∧ t.get? "content" = some w := by
  obtain ⟨m₁₀, ⟨m₉, ⟨m₈, ⟨m₇, ⟨m₆, ⟨m₅, ⟨m₄, ⟨m₃, ⟨m₂, ⟨m₁, hbegin, hopen⟩, hcapture⟩, hstar⟩,
    hnamed⟩, hbody⟩, hend⟩, hopen'⟩, hagain⟩, hstar'⟩, hclose⟩ := h
  have hbare : (many1 (one Char.isLower)).Bare := ⟨trivial, trivial⟩
  have hlower : (many1 (one Char.isLower)).Over (·.isLower = true) := ⟨fun _ h => h, fun _ h => h⟩
  obtain ⟨n, hkept, hname, m, hm, hmrest⟩ := matches_capture hbare hcapture
  obtain ⟨n', hn', hlow⟩ := hm.over hlower
  obtain rfl : n = n' := by
    rw [hmrest, hkept] at hn'
    exact List.append_cancel_right hn'
  have hbarestar : (optional (one (· == '*'))).Bare := ⟨trivial, trivial⟩
  obtain ⟨w, hw, hslots, -⟩ := matches_capture (p := fewest any) trivial hbody
  rw [hnamed.slots_eq (p := one _) trivial, hstar.slots_eq hbarestar, hname] at hslots
  rw [← hend.slots_eq (bare_lit _), ← hopen'.slots_eq (p := one _) trivial] at hslots
  have henv : m₈.get? "env" = some n := get?_of_slots_below (by decide) hslots
  obtain ⟨hagain, hslots'⟩ := matches_again hagain henv
  rw [← hslots', ← hstar'.slots_eq hbarestar, ← hclose.slots_eq (p := one _) trivial] at hslots
  obtain ⟨star, hmem, hstar⟩ := matches_star hstar
  obtain ⟨star', hmem', hstar'⟩ := matches_star hstar'
  refine ⟨n, hlow, star, hmem, star', hmem', w, ?_, get?_of_slots_below (by decide) hslots,
    get?_of_slots hslots⟩
  rw [matches_lit hbegin, matches_one_eq hopen, hkept, hstar, matches_one_eq hnamed, hw,
    matches_lit hend, matches_one_eq hopen', hagain, hstar', matches_one_eq hclose]
  simp [beginTag, endTag, braced]

theorem exists_matches_star {star r : Text} (hstar : star ∈ stars) (hs : s.rest = star ++ r) :
    ∃ t, (optional (one (· == '*'))).Matches s t ∧ t.rest = r := by
  simp only [stars, List.mem_cons, List.not_mem_nil, or_false] at hstar
  rcases hstar with rfl | rfl
  · exact ⟨s, .inr rfl, hs⟩
  · exact ⟨s.next '*' r, .inl ⟨'*', r, hs, rfl, rfl⟩, rfl⟩

theorem exists_matches_one {c : Char} {r : Text} (hs : s.rest = c :: r) :
    ∃ t, (one (· == c)).Matches s t ∧ t.rest = r :=
  ⟨s.next c r, ⟨c, r, hs, by simp, rfl⟩, rfl⟩

theorem exists_matches_anyEnvironment {n star star' w r : Text} (hne : n ≠ [])
    (hn : ∀ c ∈ n, c.isLower = true) (hstar : star ∈ stars) (hstar' : star' ∈ stars)
    (hs : s.rest = beginTag (n ++ star) ++ (w ++ (endTag (n ++ star') ++ r))) :
    ∃ t, anyEnvironment.Matches s t ∧ t.rest = r := by
  obtain ⟨c, n', rfl⟩ := List.exists_cons_of_ne_nil hne
  have hopens : s.rest = "\\begin".toList ++ ('{' :: c :: (n' ++ (star ++ '}' ::
      (w ++ ("\\end".toList ++ '{' :: (c :: n' ++ (star' ++ '}' :: r))))))) := by
    rw [hs]
    simp [beginTag, endTag, braced]
  obtain ⟨m₁, hbegin, h₁⟩ := exists_matches_lit hopens
  obtain ⟨m₂, hopen, h₂⟩ := exists_matches_one h₁
  have hlower : ∀ d ∈ n', d.isLower = true := fun d hd => hn d (List.mem_cons_of_mem _ hd)
  obtain ⟨m₃, hname, h₃⟩ := exists_matches_many hlower (s := m₂.next c _) rfl
  obtain ⟨m₄, hstar, h₄⟩ := exists_matches_star hstar
    (s := { m₃ with slots := ("env", m₂.rest, m₃.rest) :: m₃.slots }) h₃
  obtain ⟨m₅, hnamed, h₅⟩ := exists_matches_one h₄
  have hany : ∀ d ∈ w, (fun _ : Char => true) d = true := fun _ _ => rfl
  obtain ⟨m₆, hbody, h₆⟩ := exists_matches_many hany h₅
  obtain ⟨m₇, hend, h₇⟩ := exists_matches_lit
    (s := { m₆ with slots := ("content", m₅.rest, m₆.rest) :: m₆.slots }) h₆
  obtain ⟨m₈, hopen', h₈⟩ := exists_matches_one h₇
  have hslots : m₈.slots = ("content", m₅.rest, m₆.rest) ::
      ("env", (c :: n') ++ m₃.rest, m₃.rest) :: m₃.slots := by
    have hbare : (optional (one (· == '*'))).Bare := ⟨trivial, trivial⟩
    rw [hopen'.slots_eq (p := one _) trivial, hend.slots_eq (bare_lit _),
      hbody.slots_eq (p := many (one _)) trivial, hnamed.slots_eq (p := one _) trivial,
      hstar.slots_eq hbare, h₂, h₃]
    rfl
  have henv : m₈.get? "env" = some (c :: n') := get?_of_slots_below (by decide) hslots
  obtain ⟨m₉, hstar', h₉⟩ := exists_matches_star hstar'
    (s := { m₈ with before := (c :: n').getLast?.or m₈.before, rest := star' ++ '}' :: r }) rfl
  obtain ⟨t, hclose, ht⟩ := exists_matches_one h₉
  have hfirst : (many1 (one Char.isLower)).Matches m₂ m₃ :=
    ⟨_, ⟨c, _, h₂, hn c (by simp), rfl⟩, hname⟩
  exact ⟨t, ⟨_, ⟨_, ⟨_, ⟨_, ⟨_, ⟨_, ⟨_, ⟨_, ⟨_, ⟨_, hbegin, hopen⟩, m₃, hfirst, rfl⟩, hstar⟩, hnamed⟩,
    m₆, hbody, rfl⟩, hend⟩, hopen'⟩, _, _, henv, h₈, rfl⟩, hstar'⟩, hclose⟩, ht⟩

/-- A star behind two texts that do not end with one is told from what is in front of it. -/
theorem eq_of_starred {x y star star' : Text} (hx : x.getLast? ≠ some '*')
    (hy : y.getLast? ≠ some '*') (hstar : star ∈ stars) (hstar' : star' ∈ stars)
    (h : x ++ star = y ++ star') : x = y ∧ star = star' := by
  simp only [stars, List.mem_cons, List.not_mem_nil, or_false] at hstar hstar'
  rcases hstar with rfl | rfl <;> rcases hstar' with rfl | rfl
  · exact ⟨by simpa using h, rfl⟩
  · refine absurd ?_ hx
    rw [show x = y ++ ['*'] by simpa using h, List.getLast?_concat]
  · refine absurd ?_ hy
    rw [show y = x ++ ['*'] by simpa using h.symm, List.getLast?_concat]
  · exact ⟨List.append_cancel_right h, rfl⟩

theorem getLast?_ne_star {n : Text} (hn : ∀ c ∈ n, c.isLower = true) : n.getLast? ≠ some '*' :=
  fun h => absurd (hn '*' (List.mem_of_getLast? h)) (by decide)

theorem not_mem_starred {n star : Text} (hn : ∀ c ∈ n, c.isLower = true) (hstar : star ∈ stars) :
    '}' ∉ n ++ star := by
  intro h
  rcases List.mem_append.1 h with h | h
  · exact absurd (hn '}' h) (by decide)
  · simp only [stars, List.mem_cons, List.not_mem_nil, or_false] at hstar
    rcases hstar with rfl | rfl <;> simp at h

/-- An environment has one name and one body only. -/
theorem anyEnvironment_reads {n star w : Text} (hn : ∀ c ∈ n, c.isLower = true)
    (hstar : star ∈ stars) (h : anyEnvironment.Matches s t) (ht : t.rest = [])
    (hs : s.rest = beginTag (n ++ star) ++ (w ++ endTag (n ++ star))) :
    t.get? "env" = some n ∧ t.get? "content" = some w := by
  obtain ⟨m, hm, st, hst, st', hst', v, hv, henv, hcontent⟩ := matches_anyEnvironment h
  have htags : (n ++ star) ++ '}' :: (w ++ endTag (n ++ star)) =
      (m ++ st) ++ '}' :: (v ++ endTag (m ++ st')) := by
    have hboth := hs.symm.trans hv
    simpa [beginTag, braced, ht] using hboth
  obtain ⟨hname, hrest⟩ := eq_of_append_cons_eq (not_mem_starred hn hstar) (not_mem_starred hm hst) htags
  obtain ⟨rfl, rfl⟩ := eq_of_starred (getLast?_ne_star hn) (getLast?_ne_star hm) hstar hst hname
  have hlast : ∀ u : Text, (u ++ "\\end\x7b".toList ++ n).getLast? ≠ some '*' := by
    intro u hu
    rw [List.getLast?_append] at hu
    cases hlast : n.getLast? with
    | none => simp [hlast] at hu
    | some c =>
      rw [hlast, Option.some_or] at hu
      exact getLast?_ne_star hn (hlast.trans hu)
  have hends : (w ++ "\\end\x7b".toList ++ n) ++ star = (v ++ "\\end\x7b".toList ++ n) ++ st' := by
    have hlater : (w ++ "\\end\x7b".toList ++ n) ++ star ++ ['}'] =
        (v ++ "\\end\x7b".toList ++ n) ++ st' ++ ['}'] := by
      simpa [endTag, braced] using hrest
    exact List.append_cancel_right hlater
  obtain ⟨hbody, -⟩ := eq_of_starred (hlast w) (hlast v) hstar hst' hends
  have hsame : w = v := List.append_cancel_right (List.append_cancel_right hbody)
  exact ⟨henv, hsame ▸ hcontent⟩

end Environments

/-! ## Reading the source of a span -/

/-- The environments, by their full names, whose body is shown within an aligned environment. -/
def alignedNames : List Text :=
  ["align", "align*", "gather", "gather*", "multline", "multline*"].map (·.toList)

/-- A body, in an aligned environment if that is what the environment it stood in asks for. -/
def inAligned (env : Option Text) (body : Text) : Text :=
  match env with
  | some name =>
    if name ∈ alignedNames then "\\begin\x7baligned\x7d".toList ++ body ++ "\\end\x7baligned\x7d".toList
    else body
  | none => body

/-- What the pattern of delimited math keeps of a text between two delimiters. -/
theorem whole?_framed {o c w : Text} {label : String} {d e : Char} (hfirst : o.head? = some d)
    (hd : isBlank d = false) (hlast : c.getLast? = some e) (he : isBlank e = false)
    (before : List Pattern) {after : List Pattern}
    (hforms : delimitedForms = before ++ framed o label c :: after)
    (hbefore : ∀ q ∈ before, ∀ k, q.run ⟨none, o ++ (w ++ c), []⟩ k = none) :
    ∃ stop, delimitedMath.whole? (o ++ (w ++ c)) = some stop ∧ stop.slots = [(label, w ++ c, c)] := by
  have hstart : (o ++ (w ++ c)).head? = some d := by simp [List.head?_append, hfirst]
  have hend : (o ++ (w ++ c)).getLast? = some e := by simp [List.getLast?_append, hlast]
  obtain ⟨t, ht, hrest⟩ := exists_matches_framed (o := o) (c := c) (w := w) (r := [])
    (s := ⟨none, o ++ (w ++ c), []⟩) label (by simp)
  obtain ⟨stop, hstop, hm, hnil⟩ := exists_whole?_delimitedMath hstart hd hend he before hforms hbefore
    (steady_framed o c label) ht hrest
  obtain ⟨v, hv, hslots⟩ := matches_framed hm
  rw [hnil, List.append_nil] at hv hslots
  obtain rfl : w = v := List.append_cancel_right (List.append_cancel_left hv)
  exact ⟨stop, hstop, hslots⟩

section Reading

variable {stop : Cursor} {source w c : Text} {label : String} {display : Bool}

/-- A text between two delimiters is read back, and is displayed in two of the four forms. -/
theorem splitDelimiters_of_slots (hstop : delimitedMath.whole? source = some stop)
    (hslots : stop.slots = [(label, w ++ c, c)]) (hlabel : (label, display) ∈
      [("dollars", true), ("brackets", true), ("parens", false), ("dollar", false)]) :
    splitDelimiters source = ⟨w, display⟩ := by
  simp only [List.mem_cons, List.not_mem_nil, or_false, Prod.mk.injEq] at hlabel
  rcases hlabel with ⟨rfl, rfl⟩ | ⟨rfl, rfl⟩ | ⟨rfl, rfl⟩ | ⟨rfl, rfl⟩ <;>
    simp [splitDelimiters, hstop, Cursor.get?, hslots, List.lookup, between_append]

theorem splitDelimiters_dollars (w : Text) :
    splitDelimiters ("$$".toList ++ (w ++ "$$".toList)) = ⟨w, true⟩ := by
  obtain ⟨stop, hstop, hslots⟩ := whole?_framed (o := "$$".toList) (c := "$$".toList) (w := w)
    (d := '$') (e := '$') rfl rfl rfl rfl [] rfl (by simp)
  exact splitDelimiters_of_slots hstop hslots (by simp)

theorem splitDelimiters_brackets (w : Text) :
    splitDelimiters ("\\[".toList ++ (w ++ "\\]".toList)) = ⟨w, true⟩ := by
  obtain ⟨stop, hstop, hslots⟩ := whole?_framed (o := "\\[".toList) (c := "\\]".toList) (w := w)
    (d := '\\') (e := ']') rfl rfl rfl rfl (delimitedForms.take 1) rfl (by
      simp only [delimitedForms, List.take_succ_cons, List.take_zero, List.forall_mem_cons]
      exact ⟨run_framed_eq_none (by simp), by simp⟩)
  exact splitDelimiters_of_slots hstop hslots (by simp)

theorem splitDelimiters_parens (w : Text) :
    splitDelimiters ("\\(".toList ++ (w ++ "\\)".toList)) = ⟨w, false⟩ := by
  obtain ⟨stop, hstop, hslots⟩ := whole?_framed (o := "\\(".toList) (c := "\\)".toList) (w := w)
    (d := '\\') (e := ')') rfl rfl rfl rfl (delimitedForms.take 2) rfl (by
      simp only [delimitedForms, List.take_succ_cons, List.take_zero, List.forall_mem_cons]
      exact ⟨run_framed_eq_none (by simp), run_framed_eq_none (by simp), by simp⟩)
  exact splitDelimiters_of_slots hstop hslots (by simp)

/-- A text between single dollars must not start with a dollar, or two would stand in front. -/
theorem splitDelimiters_dollar {d : Char} (hd : d ≠ '$') (w : Text) :
    splitDelimiters ("$".toList ++ (d :: w ++ "$".toList)) = ⟨d :: w, false⟩ := by
  obtain ⟨stop, hstop, hslots⟩ := whole?_framed (o := "$".toList) (c := "$".toList) (w := d :: w)
    (d := '$') (e := '$') rfl rfl rfl rfl (delimitedForms.take 3) rfl (by
      simp only [delimitedForms, List.take_succ_cons, List.take_zero, List.forall_mem_cons]
      exact ⟨run_framed_eq_none (by simp [hd.symm]), run_framed_eq_none (by simp),
        run_framed_eq_none (by simp), by simp⟩)
  exact splitDelimiters_of_slots hstop hslots (by simp)

theorem steady_anyEnvironment : anyEnvironment.Steady :=
  ⟨⟨⟨⟨⟨⟨⟨⟨⟨⟨steady_lit _, trivial⟩, trivial, trivial, consumes_one _⟩, trivial, trivial⟩, trivial⟩,
    trivial, consumes_one _⟩, steady_lit _⟩, trivial⟩, trivial⟩, trivial, trivial⟩, trivial⟩

theorem splitDelimiters_environment {n star : Text} (hne : n ≠ []) (hn : ∀ c ∈ n, c.isLower = true)
    (hstar : star ∈ stars) (w : Text) :
    splitDelimiters (beginTag (n ++ star) ++ (w ++ endTag (n ++ star))) = ⟨alignedBody n w, true⟩ := by
  obtain ⟨t, ht, hrest⟩ := exists_matches_anyEnvironment hne hn hstar hstar
    (s := ⟨none, beginTag (n ++ star) ++ (w ++ endTag (n ++ star)), []⟩) (w := w) (r := []) (by simp)
  have hhead : (beginTag (n ++ star) ++ (w ++ endTag (n ++ star))).head? = some '\\' := rfl
  have hlast : (beginTag (n ++ star) ++ (w ++ endTag (n ++ star))).getLast? = some '}' := by
    rw [show beginTag (n ++ star) ++ (w ++ endTag (n ++ star)) =
      (beginTag (n ++ star) ++ (w ++ "\\end".toList ++ '{' :: (n ++ star))) ++ ['}'] by
        simp [endTag, braced], List.getLast?_concat]
  obtain ⟨stop, hstop, hm, hnil⟩ := exists_whole?_delimitedMath hhead rfl hlast rfl
    (delimitedForms.take 4) rfl (by
      simp only [delimitedForms, List.take_succ_cons, List.take_zero, List.forall_mem_cons]
      exact ⟨run_framed_eq_none (by simp [beginTag]), run_framed_eq_none (by simp [beginTag]),
        run_framed_eq_none (by simp [beginTag]), run_framed_eq_none (by simp [beginTag]), by simp⟩)
    steady_anyEnvironment ht hrest
  obtain ⟨henv, hcontent⟩ := anyEnvironment_reads hn hstar hm hnil rfl
  simp [splitDelimiters, hstop, henv, hcontent]

/-- An aligned environment is asked for by the names with and without a star. -/
theorem alignedBody_eq {n star : Text} (hn : n ∈ ["align", "equation", "gather", "multline"].map (·.toList))
    (hstar : star ∈ stars) (w : Text) : alignedBody n w = inAligned (some (n ++ star)) w := by
  have hall : ∀ n ∈ ["align", "equation", "gather", "multline"].map (·.toList), ∀ star ∈ stars,
      alignedEnvironments.contains n = decide (n ++ star ∈ alignedNames) := by decide +kernel
  rw [alignedBody, inAligned, hall n hn star hstar]
  simp only [decide_eq_true_eq]
  rfl

end Reading

/-! ## Reading lifted spans -/

/-- A text between two delimiters that a span keeps as its body. -/
theorem whole_body {o c : Text} {b : Option Char} {source : Text} {stop : Cursor}
    (h : (framed o "body" c).Matches ⟨b, source, []⟩ stop) (hend : stop.rest = []) :
    ∃ w, source = o ++ (w ++ c) ∧ stop.get? "body" = some w ∧ stop.get? "env" = none := by
  obtain ⟨w, hw, hslots⟩ := matches_framed h
  rw [hend, List.append_nil] at hw hslots
  exact ⟨w, hw, get?_of_slots hslots, by simp [Cursor.get?, hslots, List.lookup]⟩

/-- Between single dollars stands a text without dollars, which is not empty. -/
theorem whole_inlineDollars {b : Option Char} {source : Text} {stop : Cursor}
    (h : inlineDollars.Matches ⟨b, source, []⟩ stop) (hend : stop.rest = []) :
    ∃ d w, d ≠ '$' ∧ source = "$".toList ++ (d :: w ++ "$".toList) ∧
      stop.get? "body" = some (d :: w) ∧ stop.get? "env" = none := by
  obtain ⟨m₂, ⟨m₁, ⟨m₀, ⟨-, rfl⟩, hopen⟩, hinside⟩, m₃, ⟨-, rfl⟩, hclose⟩ := h
  have hbare : (fewest1 (noneOf "$\n")).Bare := ⟨trivial, trivial⟩
  obtain ⟨w, hw, hslots, m, ⟨_, ⟨d, r, hd, hok, rfl⟩, hlater⟩, hrest⟩ := matches_capture hbare hinside
  obtain ⟨u, hu⟩ := hlater.exists_append
  have hbody : w = d :: u := by
    have hboth : w ++ m₃.rest = (d :: u) ++ m₃.rest := by
      rw [← hw, ← hrest, hd, show r = u ++ m.rest from hu, List.cons_append]
    exact List.append_cancel_right hboth
  have hend' := matches_one_eq hclose
  have hslots' : stop.slots = [("body", w ++ m₃.rest, m₃.rest)] := by
    rw [hclose.slots_eq (p := one _) trivial, hslots, hopen.slots_eq (p := one _) trivial]
  refine ⟨d, u, ?_, ?_, ?_, by simp [Cursor.get?, hslots', List.lookup]⟩
  · rintro rfl
    exact absurd hok (by decide)
  · have hsource := matches_one_eq hopen
    rw [hw, hend', hend, hbody] at hsource
    simpa using hsource
  · rw [← hbody]
    exact get?_of_slots hslots'

/-- The source of a span has its body between its delimiters, and this is what is read. -/
theorem splitDelimiters_of_matches {kind : Pattern × MathPlace} (hkind : kind ∈ mathSpanKinds)
    {b : Option Char} {source : Text} {stop : Cursor} (h : kind.1.Matches ⟨b, source, []⟩ stop)
    (hend : stop.rest = []) : ∃ body, stop.get? "body" = some body ∧
      splitDelimiters source = ⟨inAligned (stop.get? "env") body, decide (kind.2 = .block)⟩ := by
  simp only [mathSpanKinds, List.mem_cons, List.not_mem_nil, or_false] at hkind
  rcases hkind with rfl | rfl | rfl | rfl | rfl
  · obtain ⟨w, rfl, hbody, henv⟩ := whole_body (o := "$$".toList) (c := "$$".toList) h hend
    exact ⟨w, hbody, by rw [splitDelimiters_dollars, henv]; rfl⟩
  · obtain ⟨w, rfl, hbody, henv⟩ := whole_body (o := "\\[".toList) (c := "\\]".toList) h hend
    exact ⟨w, hbody, by rw [splitDelimiters_brackets, henv]; rfl⟩
  · obtain ⟨n, hn, star, hstar, w, hw, henv, hbody⟩ := matches_mathEnvironment (by simp) h
    rw [hend, List.append_nil] at hw
    obtain rfl : source = _ := hw
    have hname : ∀ n ∈ ["align", "equation", "gather", "multline"].map (·.toList),
        n ≠ [] ∧ ∀ c ∈ n, c.isLower = true := by simp
    obtain ⟨hne, hlower⟩ := hname n hn
    exact ⟨w, hbody, by
      rw [splitDelimiters_environment hne hlower hstar, henv, alignedBody_eq hn hstar]; rfl⟩
  · obtain ⟨w, rfl, hbody, henv⟩ := whole_body (o := "\\(".toList) (c := "\\)".toList) h hend
    exact ⟨w, hbody, by rw [splitDelimiters_parens, henv]; rfl⟩
  · obtain ⟨d, w, hd, rfl, hbody, henv⟩ := whole_inlineDollars h hend
    exact ⟨d :: w, hbody, by rw [splitDelimiters_dollar hd, henv]; rfl⟩

/-- Math that is a span as a whole is read as the body of the span.  It is displayed if and only if
spans of its kind are lifted as blocks, and is aligned if its environment is one that aligns. -/
theorem splitDelimiters_whole {kind : Pattern × MathPlace} (hkind : kind ∈ mathSpanKinds)
    {source : Text} {stop : Cursor} (h : kind.1.whole? source = some stop) :
    ∃ body, stop.get? "body" = some body ∧
      splitDelimiters source = ⟨inAligned (stop.get? "env") body, decide (kind.2 = .block)⟩ := by
  obtain ⟨t, hm, hend⟩ := run_sound h
  obtain ⟨rfl, hnil⟩ := atEnd_eq_some hend
  exact splitDelimiters_of_matches hkind hm hnil

theorem splitDelimiters_whole_starred :
    (displayEnvironment, MathPlace.block) ∈ mathSpanKinds ∧
      ∃ stop, displayEnvironment.whole?
          "\\begin\x7bgather*\x7d\\end\x7bgather\x7d$$\\end\x7bgather*\x7d".toList = some stop ∧
        ∃ body, stop.get? "body" = some body ∧
          splitDelimiters "\\begin\x7bgather*\x7d\\end\x7bgather\x7d$$\\end\x7bgather*\x7d".toList =
            ⟨inAligned (stop.get? "env") body, decide (MathPlace.block = .block)⟩ := by
  have hkind : (displayEnvironment, MathPlace.block) ∈ mathSpanKinds := by
    simp [mathSpanKinds]
  obtain ⟨stop, hstop⟩ := Option.isSome_iff_exists.1 (show (displayEnvironment.whole?
    "\\begin\x7bgather*\x7d\\end\x7bgather\x7d$$\\end\x7bgather*\x7d".toList).isSome = true by
      decide +kernel)
  exact ⟨hkind, stop, hstop, splitDelimiters_whole hkind hstop⟩

end LatexPreview
