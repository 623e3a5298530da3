import Mathlib
import LatexPreview.Proofs.Source.Balance

/-!
# Braces read in units

A reader who goes through a text from left to right takes a backslash and the character behind it
as one unit, however many backslashes stand in a row.  The scan of the braces looks at two
characters in front of a brace instead, and yet it finds the same, as long as no three backslashes
stand in a row.

* `units` reads a text in units
* `FirstExcess`: the first closing brace at which more braces are closed than opened
* `readUnits` counts braces in a row of units
* `scanBracesFrom_units`: between two units, the scan goes on as this count does
* `scanBraces_units`: what the scan of a whole text says
-/

namespace LatexPreview

/-! ## Units -/

/-- A text in units, from left to right: a backslash and the character behind it are one unit, and
so is every other character. -/
def units : Text → List Text
  | [] => []
  | [c] => [[c]]
  | c :: e :: s => if c = '\\' then ['\\', e] :: units s else [c] :: units (e :: s)

theorem flatten_units (s : Text) : (units s).flatten = s := by
  fun_induction units s with
  | case1 => rfl
  | case2 c => rfl
  | case3 e s ih => rw [List.flatten_cons, ih]; rfl
  | case4 c e s hc ih => rw [List.flatten_cons, ih]; rfl

/-! ## Counting braces in units -/

/-- From some depth on, more braces are closed among the units than stand open. -/
def Exceeds (depth : Nat) (us : List Text) : Prop := depth + us.count ['{'] < us.count ['}']

/-- Behind the units in front stands the first closing brace at which more braces are closed than
stand open. -/
structure FirstExcess (depth : Nat) (us front : List Text) : Prop where
  closes : front ++ [['}']] <+: us
  exceeds : Exceeds depth (front ++ [['}']])
  first : ∀ earlier, earlier ++ [['}']] <+: front → ¬ Exceeds depth (earlier ++ [['}']])

section Excess

variable {d e : Nat} {u : Text} {us front other : List Text}

theorem FirstExcess.eq (h : FirstExcess d us front) (h' : FirstExcess d us other) :
    front = other := by
  have hbehind : ∀ {x y : List Text}, FirstExcess d us x → FirstExcess d us y →
      x ++ [['}']] <+: y ++ [['}']] → x = y := by
    intro x y hx hy hp
    rcases List.prefix_concat_iff.1 hp with heq | hlater
    · exact (List.append_inj' heq rfl).1
    · exact absurd hx.exceeds (hy.first x hlater)
  rcases List.prefix_or_prefix_of_prefix h.closes h'.closes with hp | hp
  · exact hbehind h h' hp
  · exact (hbehind h' h hp).symm

/-- The depth behind a unit. -/
def depthBehind (depth : Nat) (u : Text) : Nat :=
  if u = ['{'] then depth + 1 else if u = ['}'] then depth - 1 else depth

/-- A unit that closes nothing leads from one depth to another. -/
theorem exceeds_cons (hopen : ¬ (u = ['}'] ∧ d = 0)) :
    Exceeds d (u :: us) ↔ Exceeds (depthBehind d u) us := by
  simp only [Exceeds, depthBehind, List.count_cons, beq_iff_eq]
  split_ifs with h h' h' <;> simp_all <;> omega

theorem firstExcess_cons (hopen : ¬ (u = ['}'] ∧ d = 0)) :
    FirstExcess d (u :: us) front ↔
      ∃ more, front = u :: more ∧ FirstExcess (depthBehind d u) us more := by
  have hnone : u = ['}'] → ¬ Exceeds d [u] := by
    rintro rfl
    have hd : d ≠ 0 := fun hd => hopen ⟨rfl, hd⟩
    simp [Exceeds]
    omega
  constructor
  · intro h
    cases front with
    | nil =>
      obtain ⟨rfl, -⟩ := List.cons_prefix_cons.1 h.closes
      exact absurd h.exceeds (hnone rfl)
    | cons v more =>
      obtain ⟨rfl, hmore⟩ := List.cons_prefix_cons.1 h.closes
      refine ⟨more, rfl, hmore, (exceeds_cons hopen).1 h.exceeds, fun earlier hearlier => ?_⟩
      rw [← exceeds_cons hopen]
      exact h.first (v :: earlier) (List.cons_prefix_cons.2 ⟨rfl, hearlier⟩)
  · rintro ⟨more, rfl, h⟩
    refine ⟨List.cons_prefix_cons.2 ⟨rfl, h.closes⟩, (exceeds_cons hopen).2 h.exceeds,
      fun earlier hp => ?_⟩
    cases earlier with
    | nil =>
      obtain ⟨rfl, -⟩ := List.cons_prefix_cons.1 hp
      exact hnone rfl
    | cons v earlier =>
      obtain ⟨rfl, hearlier⟩ := List.cons_prefix_cons.1 hp
      rw [List.cons_append, exceeds_cons hopen]
      exact h.first earlier hearlier

theorem firstExcess_stray : FirstExcess 0 (['}'] :: us) [] :=
  ⟨List.cons_prefix_cons.2 ⟨rfl, List.nil_prefix⟩, by simp [Exceeds], by simp⟩

end Excess

/-- Counts the braces among units, from a depth and a position. -/
def readUnits (depth position : Nat) : List Text → BraceScan
  | [] => .finished depth
  | u :: us =>
    if u = ['}'] ∧ depth = 0 then .stray position
    else readUnits (depthBehind depth u) (position + u.length) us

/-- What a count of the braces among units says is right. -/
def Counted (depth position : Nat) (us : List Text) : BraceScan → Prop
  | .finished open_ => (∀ front, ¬ FirstExcess depth us front) ∧
      open_ + us.count ['}'] = depth + us.count ['{']
  | .stray stop => ∃ front, FirstExcess depth us front ∧ position + front.flatten.length = stop

theorem counted_readUnits (d n : Nat) (us : List Text) : Counted d n us (readUnits d n us) := by
  induction us generalizing d n with
  | nil => exact ⟨fun front h => absurd (List.prefix_nil.1 h.closes) (by simp), rfl⟩
  | cons u us ih =>
    rw [readUnits]
    split
    · rename_i hstray
      obtain ⟨rfl, rfl⟩ := hstray
      exact ⟨[], firstExcess_stray, rfl⟩
    · rename_i hopen
      have hlater := ih (depthBehind d u) (n + u.length)
      cases hr : readUnits (depthBehind d u) (n + u.length) us with
      | finished open_ =>
        rw [hr] at hlater
        obtain ⟨hnone, hcount⟩ := hlater
        refine ⟨fun front h => ?_, ?_⟩
        · obtain ⟨more, -, hmore⟩ := (firstExcess_cons hopen).1 h
          exact hnone more hmore
        · simp only [depthBehind, List.count_cons, beq_iff_eq] at hcount ⊢
          split_ifs at hcount ⊢ <;> simp_all <;> omega
      | stray stop =>
        rw [hr] at hlater
        obtain ⟨front, hfront, hstop⟩ := hlater
        refine ⟨u :: front, (firstExcess_cons hopen).2 ⟨front, rfl, hfront⟩, ?_⟩
        rw [List.flatten_cons, List.length_append, ← hstop, Nat.add_assoc]

/-! ## The scan between units -/

/-- The place between two units: the last character is no backslash, or it belongs to a pair of
them and no third one follows. -/
def BetweenUnits (m : Memory) (s : Text) : Prop :=
  Clear m ∨ m = (some '\\', some '\\') ∧ s.head? ≠ some '\\'

theorem BetweenUnits.calm {m : Memory} {s : Text} (h : BetweenUnits m s) : Calm m := by
  rcases h with h | ⟨rfl, -⟩
  · exact h.calm
  · rfl

section Scan

variable {m : Memory} {c : Char} {s : Text} {us : List Text} {d n : Nat}

/-- A character that is not escaped is counted as a unit. -/
theorem scanBracesFrom_single (hm : Calm m)
    (h : ∀ d n, scanBracesFrom m.2 (some c) d n s = readUnits d n us) :
    scanBracesFrom m.1 m.2 d n (c :: s) = readUnits d n ([c] :: us) := by
  have hcalm : isEscaped m.1 m.2 = false := hm
  by_cases hopen : c = '{'
  · subst hopen
    simp [readUnits, depthBehind, scanBracesFrom_open d n s hm, h]
  by_cases hclose : c = '}'
  · subst hclose
    cases d with
    | zero => simp [scanBracesFrom, readUnits, hcalm]
    | succ d => simp [readUnits, depthBehind, scanBracesFrom_close d n s hm, h]
  · simp [readUnits, depthBehind, scanBracesFrom_other d n s hopen hclose, h, hopen, hclose]

/-- A backslash and the character behind it are counted as a unit. -/
theorem scanBracesFrom_pair (hm : Clear m)
    (h : ∀ d n, scanBracesFrom (some '\\') (some c) d n s = readUnits d n us) :
    scanBracesFrom m.1 m.2 d n ('\\' :: c :: s) = readUnits d n (['\\', c] :: us) := by
  have hescaped : isEscaped m.2 (some '\\') = true := by
    rw [isEscaped, bne_iff_ne.2 hm]
    rfl
  rw [scanBracesFrom_other d n _ (by decide) (by decide), scanBracesFrom_escaped d (n + 1) s hescaped, h]
  simp [readUnits, depthBehind, Nat.add_assoc]

/-- Between two units, the scan goes on as the count of the units does. -/
theorem scanBracesFrom_units (hs : ¬ "\\\\\\".toList <:+: s) (hm : BetweenUnits m s) :
    scanBracesFrom m.1 m.2 d n s = readUnits d n (units s) := by
  fun_induction units s generalizing m d n with
  | case1 => rfl
  | case2 c => exact scanBracesFrom_single hm.calm fun _ _ => rfl
  | case3 e s ih =>
    have hclear : Clear m := hm.resolve_right fun h => h.2 rfl
    refine scanBracesFrom_pair hclear fun d n => ih (m := (some '\\', some e)) ?_ ?_
    · exact fun hi => hs (hi.trans ⟨['\\', e], [], by simp⟩)
    · by_cases he : e = '\\'
      · subst he
        refine .inr ⟨rfl, fun hthird => hs ?_⟩
        obtain ⟨r, rfl⟩ := List.head?_eq_some_iff.1 hthird
        exact ⟨[], r, rfl⟩
      · exact .inl (by simpa [Clear] using he)
  | case4 c e s hc ih =>
    refine scanBracesFrom_single hm.calm fun d n => ih (m := (m.2, some c)) ?_ ?_
    · exact fun hi => hs (hi.trans (List.suffix_cons c _).isInfix)
    · exact .inl (by simpa [Clear] using hc)

end Scan

/-! ## Whole texts -/

/-- In a text without three backslashes in a row, the scan of the braces finds what a reader of
units finds: it stops at the first closing brace at which more braces are closed than opened, and
the depth is then one below none, or else the depth at the end is the number of opening braces less
the number of closing ones. -/
theorem scanBraces_units {s : Text} (h : ¬ "\\\\\\".toList <:+: s) :
    (∀ n, (scanBraces s).unmatchedClose? = some n ↔
      ∃ front, FirstExcess 0 (units s) front ∧ front.flatten.length = n) ∧
    (∀ n, (scanBraces s).unmatchedClose? = some n → (scanBraces s).depth = -1) ∧
    ((scanBraces s).unmatchedClose? = none →
      (scanBraces s).depth = (units s).count ['{'] - (units s).count ['}']) := by
  have hscan : scanBraces s = readUnits 0 0 (units s) :=
    scanBracesFrom_units (m := (none, none)) h (.inl (by simp [Clear]))
  have hcounted := counted_readUnits 0 0 (units s)
  rw [← hscan] at hcounted
  cases hr : scanBraces s with
  | finished open_ =>
    rw [hr] at hcounted
    obtain ⟨hnone, hcount⟩ := hcounted
    refine ⟨fun n => ⟨by simp [BraceScan.unmatchedClose?], ?_⟩, ?_, fun _ => ?_⟩
    · rintro ⟨front, hfront, -⟩
      exact absurd hfront (hnone front)
    · simp [BraceScan.unmatchedClose?]
    · simp only [BraceScan.depth]
      omega
  | stray stop =>
    rw [hr] at hcounted
    obtain ⟨front, hfront, hstop⟩ := hcounted
    rw [Nat.zero_add] at hstop
    refine ⟨fun n => ?_, fun _ _ => rfl, by simp [BraceScan.unmatchedClose?]⟩
    rw [BraceScan.unmatchedClose?, Option.some_inj, ← hstop]
    constructor
    · rintro rfl
      exact ⟨front, hfront, rfl⟩
    · rintro ⟨other, hother, rfl⟩
      rw [hfront.eq hother]

/-- A pair of backslashes is a unit, so that the brace behind it counts; the one behind a single
backslash does not, and the last one closes nothing. -/
theorem scanBraces_units_pair : ¬ "\\\\\\".toList <:+: "\\\\\x7ba\\\x7d\x7d\x7d".toList ∧
    (scanBraces "\\\\\x7ba\\\x7d\x7d\x7d".toList).unmatchedClose? = some 7 ∧
    (scanBraces "\\\\\x7ba\\\x7d\x7d\x7d".toList).depth = -1 := by
  have hnone : ¬ "\\\\\\".toList <:+: "\\\\\x7ba\\\x7d\x7d\x7d".toList := by decide
  obtain ⟨hstray, hdepth, -⟩ := scanBraces_units hnone
  have hseven : (scanBraces "\\\\\x7ba\\\x7d\x7d\x7d".toList).unmatchedClose? = some 7 := by decide
  exact ⟨hnone, hseven, hdepth 7 hseven⟩

end LatexPreview
