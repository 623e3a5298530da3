import Mathlib
import LatexPreview.Proofs.Pattern.Parts
import LatexPreview.Source.MathSpans

/-!
# What a span of math reaches to

The patterns of math spans as functions: what is left of a text behind the span at its front.
A span with two delimiters reaches to the first occurrence of the second one, whatever stands in
between; a span between single dollars to the next dollar, if what stands in between lets it.

* `behindFrame` reads a span with one of some pairs of delimiters, `Spans` are the patterns of
  such spans
* `spans_delimited`, `spans_mathEnvironment`: the delimiters of the patterns
* `behindDollars` reads a span between single dollars
* `at?_inlineDollars`, `at?_proseDollars`: the patterns of these
* `opens_displayDollars` and the like: the character that a span of a kind starts with
-/

namespace LatexPreview

/-! ## Delimiters -/

/-- The delimiters in front of a span and behind it. -/
abbrev Frame := Text × Text

/-- What stands behind a span with one of some pairs of delimiters at the front of a text. -/
def behindFrame (frames : List Frame) (s : Text) : Option Text :=
  frames.findSome? fun f =>
    (Text.dropFront? f.1 s).bind fun r => (Text.find? f.2 r).map Prod.snd

/-- The tags around an environment. -/
def envFrame (name : Text) : Frame := (beginTag name, endTag name)

/-- The tags around environments with some names, with and without a star. -/
def envFrames (names : List Text) : List Frame :=
  names.flatMap fun n => [envFrame (n ++ ['*']), envFrame n]

/-- What stands behind a span between single dollars at the front of a text. -/
def behindDollars (ok : Char → Bool) (before : Option Char) (s : Text) : Option Text :=
  if before = some '\\' then none
  else (Text.dropFront? ['$'] s).bind fun r => (Text.find? ['$'] r).bind fun found =>
    if !found.1.isEmpty && found.1.all ok && found.1.getLast? != some '\\' then some found.2 else none

theorem exists_envFrame {names : List Text} {f : Frame} (hf : f ∈ envFrames names) :
    ∃ name, f = envFrame name ∧ ∃ n ∈ names, name = n ∨ name = n ++ ['*'] := by
  obtain ⟨n, hn, hname⟩ := List.mem_flatMap.1 hf
  simp only [List.mem_cons, List.not_mem_nil, or_false] at hname
  rcases hname with rfl | rfl
  · exact ⟨_, rfl, n, hn, .inr rfl⟩
  · exact ⟨_, rfl, n, hn, .inl rfl⟩

namespace Text

theorem dropFront?_append_left (u v s : Text) :
    dropFront? (u ++ v) s = (dropFront? u s).bind (dropFront? v) := by
  induction u generalizing s with
  | nil => rfl
  | cons c u ih =>
    cases s with
    | nil => rfl
    | cons d s =>
      rw [List.cons_append, dropFront?, dropFront?]
      split
      · exact ih s
      · rfl

end Text

namespace Pattern

/-- The pattern matches the spans with some pairs of delimiters. -/
def Spans (p : Pattern) (frames : List Frame) : Prop :=
  ∀ b s, (p.at? b s).map (·.rest) = behindFrame frames s

/-! ## Running parts of patterns -/

section Run

variable {s : Cursor} {k : Accept}

theorem run_one_rest {c : Char} {f : Text → Option Text}
    (hk : ∀ t, t.slots = s.slots → s.rest = c :: t.rest → (k t).map (·.rest) = f t.rest) :
    ((one (· == c)).run s k).map (·.rest) = (Text.dropFront? [c] s.rest).bind f := by
  rw [run]
  split
  · rename_i hs
    rw [hs]
    rfl
  · rename_i d r hs
    rw [hs, Text.dropFront?]
    by_cases hd : d = c
    · rw [if_pos (by simp [hd]), if_pos hd.symm]
      exact hk _ rfl (by rw [hs, hd]; rfl)
    · rw [if_neg (by simp [hd]), if_neg (Ne.symm hd)]
      rfl

theorem run_lit_rest {w : Text} {f : Text → Option Text}
    (hk : ∀ t, t.slots = s.slots → s.rest = w ++ t.rest → (k t).map (·.rest) = f t.rest) :
    ((lit w).run s k).map (·.rest) = (Text.dropFront? w s.rest).bind f := by
  induction w generalizing s with
  | nil => exact hk s rfl rfl
  | cons c w ih =>
    cases w with
    | nil => exact run_one_rest hk
    | cons d w =>
      have hlater : ((lit (c :: d :: w)).run s k).map (·.rest) =
          (Text.dropFront? [c] s.rest).bind fun r => (Text.dropFront? (d :: w) r).bind f := by
        refine run_one_rest (k := fun t => (lit (d :: w)).run t k) fun t ht hrest => ?_
        exact ih fun u hu hu' => hk u (hu.trans ht) (by rw [hrest, hu']; rfl)
      rw [hlater, ← Option.bind_assoc, ← Text.dropFront?_append_left]
      rfl

theorem run_lit_some {w : Text} : ((lit w).run s some).map (·.rest) = Text.dropFront? w s.rest :=
  (run_lit_rest (f := some) fun _ _ _ => rfl).trans (Option.bind_fun_some _)

/-- A reluctant repetition of any character stops where a text is accepted first. -/
theorem reluctantly_any {c : Text} {n : Nat} (hn : s.rest.length ≤ n)
    (hk : ∀ t, t.slots = s.slots → (k t).map (·.rest) = Text.dropFront? c t.rest) :
    (reluctantly any.run n s k).map (·.rest) = (Text.find? c s.rest).map Prod.snd := by
  induction n generalizing s with
  | zero =>
    have hs : s.rest = [] := List.length_eq_zero_iff.1 (Nat.le_zero.1 hn)
    rw [reluctantly, hk s rfl, hs]
    cases c <;> rfl
  | succ n ih =>
    have hfront := hk s rfl
    rw [reluctantly]
    split
    · rename_i t ht
      rw [ht] at hfront
      rw [Text.dropFront?_eq_some_iff.1 hfront.symm, Text.find?_front]
      rfl
    · rename_i hnone
      rw [hnone] at hfront
      rw [any, run]
      cases hs : s.rest with
      | nil =>
        rw [hs] at hfront
        have hc : c ≠ [] := by
          rintro rfl
          exact absurd hfront (by simp [Text.dropFront?])
        rw [Text.find?_eq_none (x := []) hc trivial]
        rfl
      | cons d r =>
        rw [hs] at hfront
        have hr : (s.next d r).rest.length ≤ n := by
          rw [hs, List.length_cons] at hn
          exact Nat.le_of_succ_le_succ hn
        have hlater := ih hr hk
        rw [Text.find?, ← hfront]
        simp only [if_true, Option.map_none, Option.map_map]
        exact hlater

/-- The body of a span reaches to the first occurrence of a text. -/
theorem run_body_rest {c : Text} (hk : ∀ t x, t.slots = ("body", x) :: s.slots →
    (k t).map (·.rest) = Text.dropFront? c t.rest) :
    (body.run s k).map (·.rest) = (Text.find? c s.rest).map Prod.snd :=
  reluctantly_any (k := fun t => k { t with slots := ("body", s.rest, t.rest) :: t.slots }) le_rfl
    fun t ht => hk _ _ (by rw [ht])

end Run

/-! ## Spans with two delimiters -/

/-- A delimiter, anything, and another delimiter. -/
theorem spans_delimited (o c : String) : (word o ++ body ++ word c).Spans [(o.toList, c.toList)] := by
  intro b s
  have hopen : ((word o ++ body ++ word c).at? b s).map (·.rest) =
      (Text.dropFront? o.toList s).bind fun r => (Text.find? c.toList r).map Prod.snd := by
    refine run_lit_rest (k := fun t => body.run t fun t => (word c).run t some) fun t _ _ => ?_
    exact run_body_rest fun u _ _ => run_lit_some
  rw [hopen, behindFrame, List.findSome?_singleton]

theorem Spans.alt {p q : Pattern} {f g : List Frame} (hp : p.Spans f) (hq : q.Spans g) :
    (alt p q).Spans (f ++ g) := by
  intro b s
  rw [at?, run_alt, Option.map_or, behindFrame, List.findSome?_append]
  exact congrArg₂ Option.or (hp b s) (hq b s)

/-- A text in which no span is opened is gone over. -/
theorem Spans.skips {p : Pattern} {frames : List Frame} (hp : p.Spans frames) {x s : Text}
    (h : ∀ f ∈ frames, Text.Avoids f.1 x s) (b : Option Char) : p.Skips b x s := by
  induction x generalizing b with
  | nil => trivial
  | cons c x ih =>
    refine ⟨Option.map_eq_none_iff (f := (·.rest)).1 ?_, ih (fun f hf => (h f hf).2) _⟩
    rw [hp, LatexPreview.behindFrame, List.findSome?_eq_none_iff]
    intro f hf
    rw [Text.dropFront?_eq_none_iff.2 (h f hf).1]
    rfl

theorem spans_displayDollars : displayDollars.Spans [("$$".toList, "$$".toList)] :=
  spans_delimited "$$" "$$"

theorem spans_displayBrackets : displayBrackets.Spans [("\\[".toList, "\\]".toList)] :=
  spans_delimited "\\[" "\\]"

theorem spans_inlineParens : inlineParens.Spans [("\\(".toList, "\\)".toList)] :=
  spans_delimited "\\(" "\\)"

theorem spans_pairedDelimiters : pairedDelimiters.Spans [("$$".toList, "$$".toList),
    ("\\[".toList, "\\]".toList), ("\\(".toList, "\\)".toList)] :=
  spans_displayDollars.alt (spans_displayBrackets.alt spans_inlineParens)

/-! ## Environments -/

theorem run_anyOf {ps : List Pattern} (hps : ps ≠ []) (s : Cursor) (k : Accept) :
    (anyOf ps).run s k = ps.findSome? fun p => p.run s k := by
  induction ps with
  | nil => exact absurd rfl hps
  | cons p ps ih =>
    cases ps with
    | nil => rw [List.findSome?_singleton]; rfl
    | cons q ps =>
      have hrun : (anyOf (p :: q :: ps)).run s k = (p.run s k).or ((anyOf (q :: ps)).run s k) :=
        run_alt s k
      rw [hrun, ih (by simp), ← List.singleton_append (x := p), List.findSome?_append,
        List.findSome?_singleton]

theorem run_nameAmong {names : List Text} (hnames : names ≠ []) (s : Cursor) (k : Accept) :
    (nameAmong names).run s k = names.findSome? fun n => (lit n).run s k := by
  obtain ⟨n, ns, rfl⟩ := List.exists_cons_of_ne_nil hnames
  rw [show nameAmong (n :: ns) = anyOf ((n :: ns).map lit) from rfl, run_anyOf (by simp),
    List.findSome?_map]
  rfl

/-- The closing tag repeats the name that has been kept. -/
theorem run_end_rest {s : Cursor} {name : Text} (h : s.get? "env" = some name) :
    ((command "end").run s fun t => (one (· == '{')).run t fun t => (again "env").run t fun t =>
      (one (· == '}')).run t some).map (·.rest) = Text.dropFront? (endTag name) s.rest := by
  have hget : ∀ {t : Cursor}, t.slots = s.slots → t.get? "env" = some name := by
    intro t ht
    rw [← h, Cursor.get?, Cursor.get?, ht]
  have htag : endTag name = "\\end".toList ++ (['{'] ++ (name ++ ['}'])) := by
    simp [endTag, braced]
  rw [htag, Text.dropFront?_append_left]
  refine run_lit_rest (k := fun t => (one (· == '{')).run t fun t => (again "env").run t fun t =>
      (one (· == '}')).run t some) fun t ht _ => ?_
  rw [Text.dropFront?_append_left]
  refine run_one_rest (k := fun t => (again "env").run t fun t => (one (· == '}')).run t some)
    fun u hu _ => ?_
  rw [Text.dropFront?_append_left, run, hget (hu.trans ht), Option.bind_eq_bind, Option.bind_some]
  cases Text.dropFront? name u.rest with
  | none => rfl
  | some r => exact run_lit_some (w := ['}'])

/-- What stands behind an environment, behind its name. -/
def behindName (name r : Text) : Option Text :=
  (Text.dropFront? ['}'] r).bind fun r => (Text.find? (endTag name) r).map Prod.snd

theorem run_behindName {s : Cursor} {name : Text} (h : s.get? "env" = some name) :
    ((one (· == '}')).run s fun t => body.run t fun t => (command "end").run t fun t =>
      (one (· == '{')).run t fun t => (again "env").run t fun t =>
      (one (· == '}')).run t some).map (·.rest) = behindName name s.rest := by
  refine run_one_rest (k := fun t => body.run t fun t => (command "end").run t fun t =>
      (one (· == '{')).run t fun t => (again "env").run t fun t =>
      (one (· == '}')).run t some) fun t ht _ => ?_
  refine run_body_rest fun u x hu => run_end_rest ?_
  rw [← h, Cursor.get?, Cursor.get?, hu, ht]
  rfl

/-- What stands behind an environment with one of some names, behind the brace in front of the
name.  The name may have a star. -/
def behindNames (names : List Text) (r : Text) : Option Text :=
  names.findSome? fun n => (Text.dropFront? n r).bind fun r =>
    ((Text.dropFront? ['*'] r).bind (behindName (n ++ ['*']))).or (behindName n r)

/-- The name of an environment is kept. -/
theorem run_name_rest {names : List Text} (hnames : names ≠ []) (s : Cursor) {k : Accept}
    (hk : ∀ t name, t.get? "env" = some name → (k t).map (·.rest) = behindName name t.rest) :
    ((capture "env" (nameAmong names ++ optional (one (· == '*')))).run s k).map (·.rest) =
      behindNames names s.rest := by
  have hkeep : ∀ {t : Cursor} {name : Text}, s.rest = name ++ t.rest →
      (k { t with slots := ("env", s.rest, t.rest) :: t.slots }).map (·.rest) =
        behindName name t.rest := by
    intro t name hrest
    have hslots : ("env", s.rest, t.rest) :: t.slots = ("env", name ++ t.rest, t.rest) :: t.slots := by
      rw [hrest]
    exact hk _ name (get?_of_slots hslots)
  have hrun : (capture "env" (nameAmong names ++ optional (one (· == '*')))).run s k =
      (nameAmong names).run s fun t => (optional (one (· == '*'))).run t fun u =>
        k { u with slots := ("env", s.rest, u.rest) :: u.slots } := rfl
  rw [hrun, run_nameAmong hnames, List.map_findSome?]
  refine congrArg (names.findSome? ·) (funext fun n => ?_)
  refine run_lit_rest (k := fun t => (optional (one (· == '*'))).run t fun u =>
    k { u with slots := ("env", s.rest, u.rest) :: u.slots }) fun t ht hrest => ?_
  rw [optional, run_alt, Option.map_or]
  refine congrArg₂ Option.or ?_ (hkeep hrest)
  refine run_one_rest (k := fun u => k { u with slots := ("env", s.rest, u.rest) :: u.slots })
    fun u _ hu => hkeep ?_
  rw [hrest, hu]
  simp

/-- The pattern of environments reads a brace behind the word of the tag, and then a name. -/
theorem at?_mathEnvironment {names : List Text} (hnames : names ≠ []) (b : Option Char) (s : Text) :
    ((mathEnvironment names).at? b s).map (·.rest) =
      ((Text.dropFront? "\\begin".toList s).bind (Text.dropFront? ['{'])).bind (behindNames names) := by
  rw [Option.bind_assoc]
  refine run_lit_rest (k := fun t => (one (· == '{')).run t fun t =>
    (capture "env" (nameAmong names ++ optional (one (· == '*')))).run t fun t =>
    (one (· == '}')).run t fun t => body.run t fun t => (command "end").run t fun t =>
    (one (· == '{')).run t fun t => (again "env").run t fun t =>
    (one (· == '}')).run t some) fun t _ _ => ?_
  refine run_one_rest (k := fun t =>
    (capture "env" (nameAmong names ++ optional (one (· == '*')))).run t fun t =>
    (one (· == '}')).run t fun t => body.run t fun t => (command "end").run t fun t =>
    (one (· == '{')).run t fun t => (again "env").run t fun t =>
    (one (· == '}')).run t some) fun t _ _ => ?_
  exact run_name_rest hnames t fun u name hu => run_behindName hu

theorem behindFrame_append (fs gs : List Frame) (s : Text) :
    behindFrame (fs ++ gs) s = (behindFrame fs s).or (behindFrame gs s) := List.findSome?_append

/-- The tags around one environment are read in the same order. -/
theorem behindFrame_envFrame (name s : Text) : behindFrame [envFrame name] s =
    ((Text.dropFront? "\\begin".toList s).bind (Text.dropFront? ['{'])).bind fun r =>
      (Text.dropFront? name r).bind (behindName name) := by
  have htag : beginTag name = "\\begin".toList ++ (['{'] ++ (name ++ ['}'])) := by
    simp [beginTag, braced]
  rw [behindFrame, List.findSome?_singleton, envFrame]
  simp only [htag, Text.dropFront?_append_left, Option.bind_assoc]
  rfl

theorem behindFrame_envFrames (names : List Text) (s : Text) : behindFrame (envFrames names) s =
    ((Text.dropFront? "\\begin".toList s).bind (Text.dropFront? ['{'])).bind (behindNames names) := by
  induction names with
  | nil => exact (Option.bind_fun_none _).symm
  | cons n names ih =>
    have hsplit : envFrames (n :: names) =
        [envFrame (n ++ ['*'])] ++ ([envFrame n] ++ envFrames names) := rfl
    rw [hsplit, behindFrame_append, behindFrame_append, behindFrame_envFrame, behindFrame_envFrame,
      ih]
    cases (Text.dropFront? "\\begin".toList s).bind (Text.dropFront? ['{']) with
    | none => rfl
    | some r =>
      have hcons : behindNames (n :: names) r = ((Text.dropFront? n r).bind fun r =>
          ((Text.dropFront? ['*'] r).bind (behindName (n ++ ['*']))).or (behindName n r)).or
            (behindNames names r) := by
        rw [behindNames, ← List.singleton_append (x := n), List.findSome?_append, List.findSome?_singleton]
        rfl
      simp only [Option.bind_some]
      rw [hcons, ← Option.or_assoc, Text.dropFront?_append_left]
      cases Text.dropFront? n r <;> rfl

theorem spans_mathEnvironment {names : List Text} (hnames : names ≠ []) :
    (mathEnvironment names).Spans (envFrames names) := fun b s => by
  rw [at?_mathEnvironment hnames, behindFrame_envFrames]

/-! ## Single dollars -/

/-- At a dollar, a reluctant repetition that takes none is accepted, or does not match at all. -/
theorem reluctantly_at_dollar {ok : Char → Bool} (hok : ok '$' = false) {n : Nat} {s : Cursor}
    {k : Accept} {r : Text} (hs : s.rest = '$' :: r) :
    reluctantly (one ok).run (n + 1) s k = k s := by
  have hstuck : ∀ k' : Accept, (one ok).run s k' = none := by
    intro k'
    rw [run, hs]
    simp [hok]
  rw [reluctantly_succ, hstuck, Option.or_none]

/-- Where it is not accepted, it takes a character, if it may. -/
theorem reluctantly_next {ok : Char → Bool} {n : Nat} {s : Cursor} {k : Accept} {d : Char} {r : Text}
    (hs : s.rest = d :: r) (hk : k s = none) : reluctantly (one ok).run (n + 1) s k =
      if ok d then reluctantly (one ok).run n (s.next d r) k else none := by
  rw [reluctantly_succ, hk, Option.none_or, run, hs]

/-- A reluctant repetition up to a dollar that no backslash stands in front of. -/
theorem reluctantly_dollar {ok : Char → Bool} (hok : ok '$' = false) {n : Nat} {s : Cursor}
    {k : Accept} (hn : s.rest.length ≤ n)
    (hk : ∀ t, (k t).map (·.rest) =
      if t.before = some '\\' then none else Text.dropFront? ['$'] t.rest) :
    (reluctantly (one ok).run n s k).map (·.rest) = (Text.find? ['$'] s.rest).bind fun found =>
      if found.1.all ok && found.1.getLast?.or s.before != some '\\' then some found.2 else none := by
  induction n generalizing s with
  | zero =>
    have hs : s.rest = [] := List.length_eq_zero_iff.1 (Nat.le_zero.1 hn)
    rw [reluctantly, hk, hs]
    simp [Text.find?, Text.dropFront?]
  | succ n ih =>
    have hfront := hk s
    cases hs : s.rest with
    | nil =>
      rw [hs, show Text.dropFront? ['$'] [] = none from rfl, ite_self, Option.map_eq_none_iff] at hfront
      rw [reluctantly_succ, hfront, run, hs]
      rfl
    | cons d r =>
      by_cases hd : d = '$'
      · subst hd
        have hfind : Text.find? ['$'] ('$' :: r) = some ([], r) := Text.find?_front ['$'] r
        have hdrop : Text.dropFront? ['$'] ('$' :: r) = some r := Text.dropFront?_append ['$'] r
        rw [reluctantly_at_dollar hok hs, hfront, hs, hfind, hdrop, Option.bind_some]
        by_cases hbefore : s.before = some '\\' <;> simp [hbefore]
      · have hdrop : Text.dropFront? ['$'] (d :: r) = none := if_neg (Ne.symm hd)
        have hr : (s.next d r).rest.length ≤ n := by
          rw [hs, List.length_cons] at hn
          exact Nat.le_of_succ_le_succ hn
        have hlast : ∀ x : Text, (d :: x).getLast?.or s.before = x.getLast?.or (some d) :=
          fun x => getLast?_append_or [d] x s.before
        rw [hs, hdrop, ite_self, Option.map_eq_none_iff] at hfront
        rw [reluctantly_next hs hfront, Text.find?, hdrop]
        by_cases hd : ok d = true
        · simp only [hd, if_true]
          rw [ih hr, Option.bind_map]
          refine congrArg _ (funext fun found => ?_)
          simp only [Function.comp_apply, List.all_cons, hd, Bool.true_and, hlast]
          rfl
        · rw [Option.bind_map]
          simp only [hd, Bool.false_eq_true, if_false, Option.map_none]
          refine (Option.bind_eq_none_iff.2 fun found _ => ?_).symm
          simp only [Function.comp_apply, List.all_cons, hd, Bool.false_and, Bool.false_eq_true,
            if_false]

theorem run_fewest1_dollar {ok : Char → Bool} (hok : ok '$' = false) {s : Cursor} {k : Accept}
    (hk : ∀ t, (k t).map (·.rest) =
      if t.before = some '\\' then none else Text.dropFront? ['$'] t.rest) :
    ((fewest1 (one ok)).run s k).map (·.rest) = (Text.find? ['$'] s.rest).bind fun found =>
      if !found.1.isEmpty && found.1.all ok && found.1.getLast? != some '\\' then some found.2
      else none := by
  have hrun : (fewest1 (one ok)).run s k =
      (one ok).run s fun t => reluctantly (one ok).run t.rest.length t k := rfl
  rw [hrun, run]
  cases hs : s.rest with
  | nil => rfl
  | cons d r =>
    by_cases hd : ok d = true
    · have hdrop : Text.dropFront? ['$'] (d :: r) = none := by
        refine Text.dropFront?_eq_none_iff.2 fun hp => ?_
        rw [← (List.cons_prefix_cons.1 hp).1, hok] at hd
        exact absurd hd (by simp)
      have hlast : ∀ x : Text, (d :: x).getLast? = x.getLast?.or (some d) := by
        intro x
        simpa using getLast?_append_or [d] x none
      simp only [hd, if_true]
      rw [reluctantly_dollar hok le_rfl hk, Text.find?, hdrop, Option.bind_map]
      refine congrArg _ (funext fun found => ?_)
      simp only [Function.comp_apply, List.all_cons, List.isEmpty_cons, hd, Bool.not_false,
        Bool.true_and, hlast]
      rfl
    · by_cases hdollar : d = '$'
      · rw [hdollar, show '$' :: r = ['$'] ++ r from rfl, Text.find?_front]
        simp [hok]
      · have hdrop : Text.dropFront? ['$'] (d :: r) = none := by
          refine Text.dropFront?_eq_none_iff.2 fun hp => hdollar ?_
          exact (List.cons_prefix_cons.1 hp).1.symm
        rw [Text.find?, hdrop, Option.bind_map]
        simp only [hd, Bool.false_eq_true, if_false, Option.map_none]
        refine (Option.bind_eq_none_iff.2 fun found _ => ?_).symm
        simp only [Function.comp_apply, List.all_cons, hd, Bool.false_and, Bool.and_false,
          Bool.false_eq_true, if_false]

theorem run_bareDollar_rest {s : Cursor} {k : Accept} {f : Text → Option Text}
    (hk : ∀ t, (k t).map (·.rest) = f t.rest) :
    (bareDollar.run s k).map (·.rest) =
      if s.before = some '\\' then none else (Text.dropFront? ['$'] s.rest).bind f := by
  have hrun : bareDollar.run s k =
      if s.before != some '\\' then (one (· == '$')).run s k else none := rfl
  by_cases hbefore : s.before = some '\\'
  · rw [hrun, if_pos hbefore, if_neg (by simp [hbefore])]
    rfl
  · rw [hrun, if_neg hbefore, if_pos (by simpa using hbefore)]
    exact run_one_rest fun t _ _ => hk t

theorem run_bareDollar_some (t : Cursor) : (bareDollar.run t some).map (·.rest) =
    if t.before = some '\\' then none else Text.dropFront? ['$'] t.rest := by
  rw [run_bareDollar_rest (f := some) fun _ => rfl, Option.bind_fun_some]

theorem at?_inlineDollars (b : Option Char) (s : Text) :
    (inlineDollars.at? b s).map (·.rest) =
      behindDollars (fun c => !"$\n".toList.contains c) b s := by
  refine run_bareDollar_rest (k := fun t =>
    (capture "body" (fewest1 (noneOf "$\n"))).run t fun t => bareDollar.run t some) fun t => ?_
  exact run_fewest1_dollar (by decide) (k := fun u => bareDollar.run
    { u with slots := ("body", t.rest, u.rest) :: u.slots } some) fun u => run_bareDollar_some _

theorem at?_proseDollars (b : Option Char) (s : Text) :
    (proseDollars.at? b s).map (·.rest) = behindDollars (fun c => !"$".toList.contains c) b s := by
  refine run_bareDollar_rest (k := fun t =>
    (fewest1 (noneOf "$")).run t fun t => bareDollar.run t some) fun t => ?_
  exact run_fewest1_dollar (by decide) run_bareDollar_some

/-! ## First characters -/

theorem opens_displayDollars : displayDollars.Opens '$' := ((opens_lit '$' ['$']).append _).append _

theorem opens_displayBrackets : displayBrackets.Opens '\\' :=
  ((opens_lit '\\' ['[']).append _).append _

theorem opens_inlineParens : inlineParens.Opens '\\' := ((opens_lit '\\' ['(']).append _).append _

theorem opens_mathEnvironment (names : List Text) : (mathEnvironment names).Opens '\\' :=
  (((((((opens_command "begin").append _).append _).append _).append _).append _).append _).append _
    |>.append _

theorem opens_bareDollar : bareDollar.Opens '$' := (opens_one '$').behindEdge _

theorem opens_inlineDollars : inlineDollars.Opens '$' := (opens_bareDollar.append _).append _

theorem opens_proseDollars : proseDollars.Opens '$' := (opens_bareDollar.append _).append _

end Pattern

end LatexPreview
