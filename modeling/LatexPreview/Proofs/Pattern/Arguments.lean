import Mathlib
import LatexPreview.Proofs.Pattern.Scan
import LatexPreview.Proofs.Pattern.Shapes
import LatexPreview.Source.Tags

/-!
# Arguments of commands

Where an argument in braces ends.

* `rest_of_longArgument`, `exists_matches_longArgument`: an argument without braces in it
* `matches_looseArgument`, `exists_matches_looseArgument`: an argument within a line
* `OneLevel`, `at?_command_argument`: an argument within a line that has braces in it
* `exists_at?`: where a pattern ends, if all its matches end at the same place
-/

namespace LatexPreview

open Text

namespace Pattern

variable {b : Option Char} {s r : Text}

/-- If all matches end at the same place, the preferred one does. -/
theorem exists_at? {p : Pattern} (hp : p.Steady) (hsome : ∃ t, p.Matches ⟨b, s, []⟩ t)
    (hend : ∀ t, p.Matches ⟨b, s, []⟩ t → t.rest = r) :
    ∃ stop, p.at? b s = some stop ∧ stop.rest = r := by
  obtain ⟨t, ht⟩ := hsome
  obtain ⟨stop, hstop⟩ := Option.isSome_iff_exists.1 (at?_isSome hp ht)
  exact ⟨stop, hstop, hend stop (matches_of_at? hstop)⟩

theorem exists_matches_fewest {ok : Char → Bool} {w r : Text} {s : Cursor}
    (hw : ∀ c ∈ w, ok c = true) (hs : s.rest = w ++ r) :
    ∃ t, (fewest (one ok)).Matches s t ∧ t.rest = r := exists_matches_many hw hs

/-- An argument within a line. -/
theorem matches_looseArgument {s t : Cursor} (h : looseArgument.Matches s t) :
    ∃ w, s.rest = '{' :: (w ++ '}' :: t.rest) ∧ '\n' ∉ w := by
  obtain ⟨m₂, ⟨m₁, hopen, hinside⟩, hclose⟩ := h
  obtain ⟨w, hw, hline⟩ := hinside.over (P := (· ≠ '\n')) fun c hc => by simpa using hc
  refine ⟨w, ?_, fun hmem => hline _ hmem rfl⟩
  rw [matches_one_eq hopen, hw, matches_one_eq hclose]

theorem exists_matches_looseArgument {s : Cursor} {w r : Text} (hs : s.rest = braced w ++ r)
    (hw : '\n' ∉ w) : ∃ t, looseArgument.Matches s t ∧ t.rest = r := by
  have hopen : s.rest = '{' :: (w ++ '}' :: r) := by simpa [braced] using hs
  have hline : ∀ c ∈ w, (c != '\n') = true := by
    intro c hc
    have hne : c ≠ '\n' := by
      rintro rfl
      exact hw hc
    simpa using hne
  obtain ⟨t, ht, hrest⟩ := exists_matches_fewest (w := w) (r := '}' :: r)
    (s := s.next '{' (w ++ '}' :: r)) hline rfl
  exact ⟨_, ⟨t, ⟨_, ⟨'{', _, hopen, rfl, rfl⟩, ht⟩, '}', r, hrest, rfl, rfl⟩, rfl⟩

theorem steady_looseArgument : looseArgument.Steady :=
  ⟨⟨trivial, trivial, consumes_one _⟩, trivial⟩

/-- Of two arguments at the end of a line, the shorter one is the whole line. -/
theorem eq_of_braced_line {w v r : Text} (hw : '}' ∉ w) (hv : '\n' ∉ v)
    (h : braced w ++ '\n' :: r = '{' :: (v ++ '}' :: s)) :
    s = '\n' :: r := by
  have hinside : w ++ '}' :: ('\n' :: r) = v ++ '}' :: s := by simpa [braced] using h
  by_cases hv' : '}' ∈ v
  · obtain ⟨u, x, rfl, hu⟩ := List.eq_append_cons_of_mem hv'
    have hfirst : w ++ '}' :: ('\n' :: r) = u ++ '}' :: (x ++ '}' :: s) := by simpa using hinside
    obtain ⟨-, hrest⟩ := eq_of_append_cons_eq hw hu hfirst
    cases x with
    | nil => exact absurd (List.cons.inj hrest).1 (by decide)
    | cons d x =>
      obtain ⟨rfl, -⟩ := List.cons.inj hrest
      exact absurd (by simp) hv
  · exact (eq_of_append_cons_eq hw hv' hinside).2.symm

/-- In a text without braces, nothing nested reaches over the next closing brace. -/
theorem matches_nested_plain {s t : Cursor} {f r : Text}
    (h : (nested (noneOf "\x7b\x7d")).Matches s t) (hs : s.rest = f ++ '}' :: r)
    (hf : ∀ c ∈ f, c ∉ ['{', '}']) :
    ∃ g, (∀ c ∈ g, c ∉ ['{', '}']) ∧ t.rest = g ++ '}' :: r := by
  refine Relation.ReflTransGen.head_induction_on h (motive := fun s _ => ∀ f, s.rest = f ++ '}' :: r →
    (∀ c ∈ f, c ∉ ['{', '}']) → ∃ g, (∀ c ∈ g, c ∉ ['{', '}']) ∧ t.rest = g ++ '}' :: r) ?_ ?_ f hs hf
  · exact fun f hs hf => ⟨f, hf, hs⟩
  · rintro s m (⟨c, u, hu, hc, rfl⟩ | ⟨m₁, ⟨m₂, hopen, -⟩, -⟩) - ih f hs hf
    · cases f with
      | nil =>
        obtain ⟨rfl, -⟩ := List.cons.inj (hu.symm.trans hs)
        exact absurd hc (by decide)
      | cons d f =>
        obtain ⟨-, hrest⟩ := List.cons.inj (hu.symm.trans hs)
        exact ih f hrest fun e he => hf e (by simp [he])
    · exfalso
      have hbrace := (matches_one_eq hopen).symm.trans hs
      cases f with
      | nil => exact absurd (List.cons.inj hbrace).1 (by decide)
      | cons d f =>
        obtain ⟨rfl, -⟩ := List.cons.inj hbrace
        exact hf '{' (by simp) (by simp)

theorem rest_of_longArgument {label : String} {s t : Cursor} {f r : Text}
    (h : (longArgument label).Matches s t) (hs : s.rest = braced f ++ r)
    (hf : ∀ c ∈ f, c ∉ ['{', '}']) : t.rest = r := by
  obtain ⟨m, ⟨m₁, hopen, ⟨m₂, hnested, rfl⟩⟩, hclose⟩ := h
  have hinside : m₁.rest = f ++ '}' :: r := by
    have hboth := (matches_one_eq hopen).symm.trans hs
    simpa [braced] using hboth
  obtain ⟨g, hg, hrest⟩ := matches_nested_plain hnested hinside hf
  have hend := matches_one_eq hclose
  simp only [hrest] at hend
  cases g with
  | nil => exact (List.cons.inj hend).2.symm
  | cons d g =>
    obtain ⟨rfl, -⟩ := List.cons.inj hend
    exact absurd (by simp) (hg '}' (by simp))

theorem exists_matches_longArgument {label : String} {s : Cursor} {f r : Text}
    (hs : s.rest = braced f ++ r) (hf : ∀ c ∈ f, c ∉ ['{', '}']) :
    ∃ t, (longArgument label).Matches s t := by
  have hopen : s.rest = '{' :: (f ++ '}' :: r) := by simpa [braced] using hs
  have hplain : ∀ c ∈ f, (!"\x7b\x7d".toList.contains c) = true := by
    intro c hc
    simpa using hf c hc
  obtain ⟨t, ht, hrest⟩ := exists_matches_many
    (w := f) (r := '}' :: r) (s := s.next '{' (f ++ '}' :: r)) hplain rfl
  have hnested : (nested (noneOf "\x7b\x7d")).Matches (s.next '{' (f ++ '}' :: r)) t :=
    Relation.ReflTransGen.mono (fun _ _ hone => Or.inl hone) _ _ ht
  exact ⟨_, _, ⟨_, ⟨'{', _, hopen, rfl, rfl⟩, t, hnested, rfl⟩, '}', r, hrest, rfl, rfl⟩

theorem steady_longArgument (label : String) : (longArgument label).Steady := by
  have hgroup : (one (· == '{') ++ many (noneOf "\x7b\x7d") ++ one (· == '}')).Consumes :=
    (((opens_one '{').append _).append _).consumes
  have hnested : (nested (noneOf "\x7b\x7d")).Steady :=
    ⟨⟨trivial, ⟨trivial, trivial, consumes_one _⟩, trivial⟩, (consumes_one _).alt hgroup⟩
  exact ⟨⟨trivial, hnested⟩, trivial⟩

/-! ## Arguments with braces in them -/

/-- The characters that may stand in an argument within a line, apart from braces. -/
def InArgument (c : Char) : Prop := c ∉ ['{', '}', '\n']

instance (c : Char) : Decidable (InArgument c) := inferInstanceAs (Decidable (c ∉ _))

/-- Text of a line in which one level of braces stands. -/
inductive OneLevel : Text → Prop
  | nil : OneLevel []
  | char {c : Char} {w : Text} (hc : InArgument c) (later : OneLevel w) : OneLevel (c :: w)
  | group {u w : Text} (hu : ∀ c ∈ u, InArgument c) (later : OneLevel w) :
      OneLevel ('{' :: (u ++ '}' :: w))

theorem OneLevel.append {v w : Text} (hv : OneLevel v) (hw : OneLevel w) : OneLevel (v ++ w) := by
  induction hv with
  | nil => exact hw
  | char hc _ ih => exact .char hc ih
  | group hu _ ih =>
    rw [List.cons_append, List.append_assoc, List.cons_append]
    exact .group hu ih

/-- A brace that is opened is closed. -/
theorem OneLevel.mem_of_open {w x y : Text} (hw : OneLevel w) (h : w = x ++ '{' :: y) : '}' ∈ y := by
  induction hw generalizing x with
  | nil => exact absurd h (by simp)
  | @char c w hc _ ih =>
    cases x with
    | nil => exact absurd hc (by rw [(List.cons.inj h).1]; decide)
    | cons d x => exact ih (List.cons.inj h).2
  | @group u w hu _ ih =>
    cases x with
    | nil =>
      rw [← (List.cons.inj h).2]
      simp
    | cons d x =>
      have hinside : u ++ '}' :: w = x ++ '{' :: y := (List.cons.inj h).2
      rcases append_eq_append_cons hinside with ⟨x', -, hlater⟩ | ⟨v, hv, -⟩
      · cases x' with
        | nil => exact absurd (List.cons.inj hlater).1 (by decide)
        | cons e x' => exact ih (List.cons.inj hlater).2
      · exact absurd (hu '{' (by rw [hv]; simp)) (by decide)

theorem oneLevel_of_plain {w : Text} (hw : ∀ c ∈ w, InArgument c) : OneLevel w := by
  induction w with
  | nil => exact .nil
  | cons c w ih => exact .char (hw c (by simp)) (ih fun d hd => hw d (by simp [hd]))

/-- Braces on one level are closed by the first brace that is one too many. -/
theorem OneLevel.eq_of_append {v w x y : Text} (hv : OneLevel v) (hw : OneLevel w)
    (h : v ++ '}' :: x = w ++ '}' :: y) : v = w ∧ x = y := by
  have hclose : ∀ {c : Char}, InArgument c → c ≠ '}' ∧ c ≠ '{' := by
    intro c hc
    constructor <;> rintro rfl <;> exact absurd hc (by decide)
  induction hv generalizing w with
  | nil =>
    cases hw with
    | nil => exact ⟨rfl, (List.cons.inj h).2⟩
    | char hc _ => exact absurd (List.cons.inj h).1.symm (hclose hc).1
    | group => exact absurd (List.cons.inj h).1 (by decide)
  | @char c v hc _ ih =>
    cases hw with
    | nil => exact absurd (List.cons.inj h).1 (hclose hc).1
    | char hd later =>
      obtain ⟨rfl, hrest⟩ := List.cons.inj h
      obtain ⟨rfl, hxy⟩ := ih later hrest
      exact ⟨rfl, hxy⟩
    | group => exact absurd (List.cons.inj h).1 (hclose hc).2
  | @group u v hu _ ih =>
    cases hw with
    | nil => exact absurd (List.cons.inj h).1 (by decide)
    | char hd _ => exact absurd (List.cons.inj h).1.symm (hclose hd).2
    | @group u' w hu' later =>
      have hnot : ∀ {u : Text}, (∀ c ∈ u, InArgument c) → '}' ∉ u := fun hu hmem =>
        (hclose (hu _ hmem)).1 rfl
      have hinside : u ++ '}' :: (v ++ '}' :: x) = u' ++ '}' :: (w ++ '}' :: y) := by
        simpa using (List.cons.inj h).2
      obtain ⟨rfl, hrest⟩ := eq_of_append_cons_eq (hnot hu) (hnot hu') hinside
      obtain ⟨rfl, hxy⟩ := ih later hrest
      exact ⟨rfl, hxy⟩

theorem inArgument_of_noneOf {c : Char} (h : (!"\x7b\x7d\n".toList.contains c) = true) :
    InArgument c := by
  simpa [InArgument] using h

/-- What the inside of an argument matches is text with one level of braces. -/
theorem matches_nested {s t : Cursor} (h : (nested (noneOf "\x7b\x7d\n")).Matches s t) :
    ∃ w, OneLevel w ∧ s.rest = w ++ t.rest := by
  refine Relation.ReflTransGen.head_induction_on h ⟨[], .nil, rfl⟩ ?_
  rintro a b (⟨c, r, hc, hok, rfl⟩ | ⟨m₁, ⟨m₂, hopen, hinside⟩, hclose⟩) - ⟨w, hw, hrest⟩
  · exact ⟨c :: w, .char (inArgument_of_noneOf hok) hw, by rw [hc, show r = w ++ t.rest from hrest]; rfl⟩
  · have hover : (many (noneOf "\x7b\x7d\n")).Over InArgument := fun c hc => inArgument_of_noneOf hc
    obtain ⟨u, hu, hall⟩ := hinside.over hover
    refine ⟨'{' :: (u ++ '}' :: w), .group hall hw, ?_⟩
    rw [matches_one_eq hopen, hu, matches_one_eq hclose, hrest]
    simp

/-- What an argument matches is such a text in braces. -/
theorem exists_of_argument {label : String} {s t : Cursor} (h : (argument label).Matches s t) :
    ∃ w, OneLevel w ∧ s.rest = braced w ++ t.rest ∧ t.get? label = some w := by
  obtain ⟨m₁, ⟨m₂, hopen, m₃, hinside, rfl⟩, hclose⟩ := h
  obtain ⟨w, hw, hrest⟩ := matches_nested hinside
  have hend : m₃.rest = '}' :: t.rest :=
    matches_one_eq (s := { m₃ with slots := (label, m₂.rest, m₃.rest) :: m₃.slots }) hclose
  refine ⟨w, hw, ?_, ?_⟩
  · rw [matches_one_eq hopen, hrest, hend]
    simp [braced]
  · rw [hclose.get?_eq (p := one _) trivial]
    exact get?_of_slots (by rw [hrest])

theorem exists_matches_nested {s : Cursor} {w r : Text} (hw : OneLevel w) (hs : s.rest = w ++ r) :
    ∃ t, (nested (noneOf "\x7b\x7d\n")).Matches s t ∧ t.rest = r := by
  have hok : ∀ {c : Char}, InArgument c → (!"\x7b\x7d\n".toList.contains c) = true := by
    intro c hc
    simpa [InArgument] using hc
  induction hw generalizing s with
  | nil => exact ⟨s, .refl, hs⟩
  | @char c w hc _ ih =>
    obtain ⟨t, ht, hrest⟩ := ih (s := s.next c (w ++ r)) rfl
    exact ⟨t, .head (.inl ⟨c, _, hs, hok hc, rfl⟩) ht, hrest⟩
  | @group u w hu _ ih =>
    have hopen : s.rest = '{' :: (u ++ '}' :: (w ++ r)) := by simpa using hs
    obtain ⟨m, hinside, hm⟩ := exists_matches_many (r := '}' :: (w ++ r)) (fun c hc => hok (hu c hc))
      (s := s.next '{' _) rfl
    obtain ⟨t, ht, hrest⟩ := ih (s := m.next '}' (w ++ r)) rfl
    refine ⟨t, .head (.inr ⟨m, ⟨_, ⟨'{', _, hopen, rfl, rfl⟩, hinside⟩, '}', _, hm, rfl, rfl⟩) ht, hrest⟩

theorem steady_argument (label : String) : (argument label).Steady := by
  have hgroup : (one (· == '{') ++ many (noneOf "\x7b\x7d\n") ++ one (· == '}')).Consumes :=
    (((opens_one '{').append _).append _).consumes
  have hnested : (nested (noneOf "\x7b\x7d\n")).Steady :=
    ⟨⟨trivial, ⟨trivial, trivial, consumes_one _⟩, trivial⟩, (consumes_one _).alt hgroup⟩
  exact ⟨⟨trivial, hnested⟩, trivial⟩

/-- A command is found with its whole argument, if this has one level of braces. -/
theorem at?_command_argument {name label : String} {w : Text} (hw : OneLevel w) (b : Option Char)
    (s : Text) : ∃ stop, (command name ++ argument label).at? b
        ('\\' :: name.toList ++ braced w ++ s) = some stop ∧
      stop.rest = s ∧ stop.get? label = some w := by
  have hfront : '\\' :: name.toList ++ braced w ++ s =
      ('\\' :: name.toList) ++ ('{' :: (w ++ '}' :: s)) := by simp [braced]
  obtain ⟨m₁, hcommand, h₁⟩ := exists_matches_lit (s := ⟨b, _, []⟩) hfront
  obtain ⟨m₂, hinside, h₂⟩ := exists_matches_nested hw (s := m₁.next '{' (w ++ '}' :: s)) rfl
  have harg : (argument label).Matches m₁
      (({ m₂ with slots := (label, w ++ '}' :: s, m₂.rest) :: m₂.slots } : Cursor).next '}' s) :=
    ⟨_, ⟨_, ⟨'{', _, h₁, rfl, rfl⟩, m₂, hinside, rfl⟩, '}', s, h₂, rfl, rfl⟩
  have hsteady : (command name ++ argument label).Steady := ⟨steady_lit _, steady_argument label⟩
  obtain ⟨stop, hstop⟩ := Option.isSome_iff_exists.1 (at?_isSome hsteady ⟨m₁, hcommand, harg⟩)
  obtain ⟨n, hcommand', harg'⟩ := matches_of_at? hstop
  obtain ⟨v, hv, hrest, hget⟩ := exists_of_argument harg'
  have hboth : w ++ '}' :: s = v ++ '}' :: stop.rest := by
    have hwhole := hfront.symm.trans (matches_lit hcommand')
    rw [List.append_cancel_left_eq, hrest] at hwhole
    simpa [braced] using hwhole
  obtain ⟨rfl, hs⟩ := hw.eq_of_append hv hboth
  exact ⟨stop, hstop, hs.symm, hget⟩

/-- An optional part that starts with another character than the text is not there. -/
theorem eq_of_optional {p : Pattern} {c d : Char} (hp : p.Opens c) {s t : Cursor}
    (h : (optional p).Matches s t) {x : Text} (hs : s.rest = d :: x) (hne : d ≠ c) : t = s := by
  rcases h with h | h
  · obtain ⟨w, hw⟩ := hp _ _ h
    exact absurd (List.cons.inj (hs.symm.trans hw)).1 hne
  · exact h

end Pattern

end LatexPreview
