import Mathlib
import LatexPreview.Proofs.Pattern.Parts

/-!
# Patterns in front of a border

A match that starts in a text may reach over into what follows it, or may be lost because of what
follows.  Where a pattern does neither, it runs over the text in front of a border just as if nothing
stood behind it, and so the matches in both parts are replaced apart.

* `run_congr_of_matches`: a continuation is asked at places behind a match only
* `greedily_fuel`, `reluctantly_fuel`: more rounds than characters make no difference
* `rewritten`: a text with its matches replaced, step by step
* `Unaware`: a pattern that does not look at the character in front
* `run_upto`, `run_looseArgument`: what ends at the next character of a kind
* `StaysBefore`: a pattern runs over some texts as if nothing stood behind them
* `StaysBefore.replace_append`: the matches on both sides of a border are replaced apart
-/

namespace LatexPreview

/-! ## Places in front of a text -/

/-- The place with a text added behind all that stands there. -/
def Cursor.followed (c : Cursor) (s : Text) : Cursor :=
  ⟨c.before, c.rest ++ s, c.slots.map fun slot => (slot.1, slot.2.1 ++ s, slot.2.2 ++ s)⟩

theorem Text.between_append_append (x y s : Text) :
    Text.between (x ++ s) (y ++ s) = Text.between x y := by
  have hlength : (x ++ s).length - (y ++ s).length = x.length - y.length := by
    simp only [List.length_append]
    omega
  rw [between, between, hlength, List.take_append_of_le_length (Nat.sub_le _ _)]

/-- What has been captured does not depend on what stands behind. -/
theorem Cursor.get?_followed (c : Cursor) (s : Text) (label : String) :
    (c.followed s).get? label = c.get? label := by
  obtain ⟨before, rest, slots⟩ := c
  simp only [Cursor.get?, followed]
  induction slots with
  | nil => rfl
  | cons slot slots ih =>
    obtain ⟨name, start, stop⟩ := slot
    simp only [List.map_cons, List.lookup]
    split
    · simp [Text.between_append_append]
    · exact ih

namespace Pattern

/-! ## Rounds -/

section Fuel

variable {p : Pattern} {k k' : Accept} {c : Cursor} {n m : Nat}

/-- A continuation is asked at places behind a match only. -/
theorem run_congr_of_matches (h : ∀ t, p.Matches c t → k t = k' t) : p.run c k = p.run c k' := by
  induction p generalizing c k k' with
  | done => exact h c rfl
  | one ok =>
    rw [run, run]
    split
    · rfl
    · rename_i d r hrest
      split
      · exact h _ ⟨d, r, hrest, ‹_›, rfl⟩
      · rfl
  | seq p q ihp ihq => exact ihp fun t ht => ihq fun u hu => h u ⟨t, ht, hu⟩
  | alt p q ihp ihq =>
    rw [run_alt, run_alt, ihp fun t ht => h t (.inl ht), ihq fun t ht => h t (.inr ht)]
  | many p ih =>
    have hrounds : ∀ n c, (∀ t, Relation.ReflTransGen (fun a b => p.Matches a b) c t → k t = k' t) →
        greedily p.run n c k = greedily p.run n c k' := by
      intro n
      induction n with
      | zero => exact fun c hc => hc c .refl
      | succ n ihn =>
        intro c hc
        rw [greedily_succ, greedily_succ, hc c .refl,
          ih fun t ht => ihn t fun u hu => hc u (.head ht hu)]
    exact hrounds _ c h
  | fewest p ih =>
    have hrounds : ∀ n c, (∀ t, Relation.ReflTransGen (fun a b => p.Matches a b) c t → k t = k' t) →
        reluctantly p.run n c k = reluctantly p.run n c k' := by
      intro n
      induction n with
      | zero => exact fun c hc => hc c .refl
      | succ n ihn =>
        intro c hc
        rw [reluctantly_succ, reluctantly_succ, hc c .refl,
          ih fun t ht => ihn t fun u hu => hc u (.head ht hu)]
    exact hrounds _ c h
  | capture label p ih => exact ih fun t ht => h _ ⟨t, ht, rfl⟩
  | again label =>
    rw [run, run]
    cases hword : c.get? label with
    | none => rfl
    | some word =>
      cases hdrop : Text.dropFront? word c.rest with
      | none => simp [hdrop]
      | some r =>
        simp only [Option.bind_eq_bind, Option.bind_some, hdrop]
        exact h _ ⟨word, r, hword, Text.eq_append_of_dropFront? hdrop, rfl⟩
  | notAhead p _ =>
    rw [run, run]
    split
    · rfl
    · exact h c ⟨‹_›, rfl⟩
  | edge ok =>
    rw [run, run]
    split
    · exact h c ⟨‹_›, rfl⟩
    · rfl

theorem Consumes.run_nil (hp : p.Consumes) (hc : c.rest = []) (k : Accept) : p.run c k = none := by
  refine Option.eq_none_iff_forall_ne_some.2 fun u hu => ?_
  obtain ⟨t, ht, -⟩ := run_sound hu
  have hless := hp _ _ ht
  rw [hc] at hless
  exact absurd hless (Nat.not_lt_zero _)

/-- More rounds than characters make no difference. -/
theorem greedily_fuel (hp : p.Consumes) (hn : c.rest.length ≤ n) (hm : c.rest.length ≤ m) :
    greedily p.run n c k = greedily p.run m c k := by
  have hend : ∀ {n : Nat} {c : Cursor}, c.rest = [] → greedily p.run n c k = k c := by
    intro n c hc
    cases n with
    | zero => rfl
    | succ n => rw [greedily_succ, hp.run_nil hc, Option.none_or]
  induction n generalizing m c with
  | zero =>
    have hc : c.rest = [] := List.length_eq_zero_iff.1 (Nat.le_zero.1 hn)
    rw [hend hc, hend hc]
  | succ n ih =>
    cases m with
    | zero =>
      have hc : c.rest = [] := List.length_eq_zero_iff.1 (Nat.le_zero.1 hm)
      rw [hend hc, hend hc]
    | succ m =>
      rw [greedily_succ, greedily_succ]
      refine congrArg (Option.or · _) (run_congr_of_matches fun t ht => ?_)
      have hless := hp _ _ ht
      exact ih (by omega) (by omega)

theorem reluctantly_fuel (hp : p.Consumes) (hn : c.rest.length ≤ n) (hm : c.rest.length ≤ m) :
    reluctantly p.run n c k = reluctantly p.run m c k := by
  have hend : ∀ {n : Nat} {c : Cursor}, c.rest = [] → reluctantly p.run n c k = k c := by
    intro n c hc
    cases n with
    | zero => rfl
    | succ n => rw [reluctantly_succ, hp.run_nil hc, Option.or_none]
  induction n generalizing m c with
  | zero =>
    have hc : c.rest = [] := List.length_eq_zero_iff.1 (Nat.le_zero.1 hn)
    rw [hend hc, hend hc]
  | succ n ih =>
    cases m with
    | zero =>
      have hc : c.rest = [] := List.length_eq_zero_iff.1 (Nat.le_zero.1 hm)
      rw [hend hc, hend hc]
    | succ m =>
      rw [reluctantly_succ, reluctantly_succ]
      refine congrArg (Option.or _) (run_congr_of_matches fun t ht => ?_)
      have hless := hp _ _ ht
      exact ih (by omega) (by omega)

end Fuel

/-! ## Cuts step by step -/

/-- The text behind a character with each match replaced by what its end tells. -/
def rewritten (p : Pattern) (g : Cursor → Text) (b : Option Char) (s : Text) : Text :=
  (p.cutFrom b s).replace fun h => g h.stop

section Rewritten

variable {p : Pattern} (hp : p.Consumes) (g : Cursor → Text) {b : Option Char}

include hp

theorem rewritten_nil : p.rewritten g b [] = [] := by
  rw [rewritten, cutFrom, cutAtMost_nil hp]
  rfl

theorem rewritten_gap {c : Char} {s : Text} (h : p.at? b (c :: s) = none) :
    p.rewritten g b (c :: s) = c :: p.rewritten g (some c) s := by
  have hcut : p.cutFrom b (c :: s) = (p.cutFrom (some c) s).prepend [c] :=
    cutFrom_skips (x := [c]) hp ⟨h, trivial⟩
  rw [rewritten, rewritten, hcut]
  obtain ⟨hits, tail⟩ := p.cutFrom (some c) s
  cases hits <;> simp [Cut.prepend, Cut.replace]

theorem rewritten_hit {m s : Text} {stop : Cursor} (hm : m ≠ [])
    (h : p.at? b (m ++ s) = some stop) (hrest : stop.rest = s) :
    p.rewritten g b (m ++ s) = g stop ++ p.rewritten g (m.getLast?.or b) s := by
  rw [rewritten, cutFrom_hit hp hm h hrest]
  simp [Cut.replace, rewritten]

end Rewritten

/-- A pattern that does not look at the character in front. -/
def Unaware (p : Pattern) : Prop :=
  ∀ b b' s slots k, p.run ⟨b, s, slots⟩ k = p.run ⟨b', s, slots⟩ k

theorem unaware_one (ok : Char → Bool) : (one ok).Unaware := fun _ _ _ _ _ => rfl

theorem Unaware.append {p : Pattern} (hp : p.Unaware) (q : Pattern) : (p ++ q).Unaware :=
  fun b b' s slots _ => hp b b' s slots _

theorem unaware_lit (c : Char) (w : Text) : (lit (c :: w)).Unaware := by
  cases w with
  | nil => exact unaware_one _
  | cons d w => exact (unaware_one _).append _

theorem Unaware.alt {p q : Pattern} (hp : p.Unaware) (hq : q.Unaware) : (alt p q).Unaware := by
  intro b b' s slots k
  rw [run_alt, run_alt, hp b b', hq b b']

/-- Such a pattern cuts a text in the same way behind any character. -/
theorem Unaware.cutFrom_eq {p : Pattern} (hp : p.Unaware) (b b' : Option Char) (s : Text) :
    p.cutFrom b s = p.cutFrom b' s := by
  have hat : p.at? b s = p.at? b' s := hp b b' s [] some
  have hfirst : p.first? b s = p.first? b' s := by
    cases s with
    | nil => rw [first?, first?, hat]
    | cons c s => rw [first?, first?, hat]
  rw [cutFrom, cutFrom]
  cases s with
  | nil => rfl
  | cons c s => rw [List.length_cons, cutAtMost, cutAtMost, hfirst]

theorem Unaware.rewritten_eq {p : Pattern} (hp : p.Unaware) (g : Cursor → Text) (b b' : Option Char)
    (s : Text) : p.rewritten g b s = p.rewritten g b' s := by
  rw [rewritten, rewritten, hp.cutFrom_eq b b']

theorem Unaware.countFrom_eq {p : Pattern} (hp : p.Unaware) (b : Option Char) (s : Text) :
    p.countFrom b s = p.count s := by
  rw [count_eq, countFrom, countFrom, hp.cutFrom_eq b none]

/-! ## Up to a character -/

/-- Over a text without a character, up to the next one, there is a single way to go. -/
theorem run_upto {cs : String} {d : Char} (hcs : cs.toList = [d]) {w r : Text} (hw : d ∉ w) {c : Cursor}
    (hc : c.rest = w ++ d :: r) (k : Accept) :
    (many (noneOf cs) ++ one (· == d)).run c k = k ⟨some d, r, c.slots⟩ := by
  have hrounds : ∀ n w (c : Cursor), c.rest = w ++ d :: r → d ∉ w → w.length ≤ n →
      greedily (noneOf cs).run n c (fun t => (one (· == d)).run t k) = k ⟨some d, r, c.slots⟩ := by
    have hlast : ∀ {c : Cursor}, c.rest = d :: r →
        (one (· == d)).run c k = k ⟨some d, r, c.slots⟩ := by
      intro c hc
      simp [run, hc, Cursor.next]
    intro n
    induction n with
    | zero =>
      intro w c hc _ hn
      obtain rfl := List.length_eq_zero_iff.1 (Nat.le_zero.1 hn)
      exact hlast hc
    | succ n ih =>
      intro w c hc hw hn
      rw [greedily_succ]
      cases w with
      | nil =>
        have hstop : (noneOf cs).run c
            (fun t => greedily (noneOf cs).run n t fun t => (one (· == d)).run t k) = none := by
          simp [noneOf, run, hc, hcs]
        rw [hstop, Option.none_or, hlast hc]
      | cons e w =>
        have hne : e ≠ d := fun heq => hw (by simp [heq])
        have hstep : (noneOf cs).run c
            (fun t => greedily (noneOf cs).run n t fun t => (one (· == d)).run t k) =
              k ⟨some d, r, c.slots⟩ := by
          have hnext := ih w (c.next e (w ++ d :: r)) rfl (fun hmem => hw (by simp [hmem]))
            (by simpa using hn)
          simpa [noneOf, run, hc, hcs, hne, Cursor.next] using hnext
        have hhere : (one (· == d)).run c k = none := by simp [run, hc, hne]
        rw [hstep, hhere, Option.or_none]
  exact hrounds _ w c hc hw (by rw [hc]; simp)

/-- An argument that ends as soon as it can holds no closing brace. -/
theorem run_looseArgument {c t : Cursor} (h : looseArgument.run c some = some t) :
    ∃ w, c.rest = '{' :: (w ++ '}' :: t.rest) ∧ '}' ∉ w := by
  have hclose : ∀ {u : Cursor}, (one (· == '}')).run u some = some t → u.rest = '}' :: t.rest := by
    intro u hu
    obtain ⟨v, hv, hend⟩ := run_sound hu
    rw [← Option.some.inj hend]
    exact matches_one_eq hv
  have hinside : ∀ n (u : Cursor),
      reluctantly inLine.run n u (fun v => (one (· == '}')).run v some) = some t →
        ∃ w, u.rest = w ++ '}' :: t.rest ∧ '}' ∉ w := by
    intro n
    induction n with
    | zero => exact fun u hu => ⟨[], hclose hu, by simp⟩
    | succ n ih =>
      intro u hu
      rw [reluctantly_succ] at hu
      rcases Option.or_eq_some_iff.1 hu with hend | ⟨hnone, hstep⟩
      · exact ⟨[], hclose hend, by simp⟩
      · obtain ⟨v, ⟨d, r, hd, -, rfl⟩, hlater⟩ := run_sound hstep
        obtain ⟨w, hw, hfree⟩ := ih _ hlater
        have hne : d ≠ '}' := by
          rintro rfl
          simp [run, hd] at hnone
        exact ⟨d :: w, by rw [hd, show r = _ from hw]; rfl, by simp [hfree, Ne.symm hne]⟩
  have hrun : (one (· == '{')).run c
      (fun u => (fewest inLine).run u fun v => (one (· == '}')).run v some) = some t := h
  obtain ⟨m, hm, hlater⟩ := run_sound hrun
  obtain ⟨w, hw, hfree⟩ := hinside _ m hlater
  exact ⟨w, by rw [matches_one_eq hm, hw], hfree⟩

/-! ## In front of a border -/

/-- The pattern runs over the texts of a class as if the text behind them were not there. -/
def StaysBefore (p : Pattern) (s : Text) (Q : Text → Prop) : Prop :=
  ∀ c k k', Q c.rest → (∀ t, Q t.rest → k (t.followed s) = (k' t).map (·.followed s)) →
    p.run (c.followed s) k = (p.run c k').map (·.followed s)

/-- A class of texts that has the ends of its texts. -/
def HasEnds (Q : Text → Prop) : Prop := ∀ c s, Q (c :: s) → Q s

theorem HasEnds.of_append {Q : Text → Prop} (hQ : HasEnds Q) {x y : Text} (h : Q (x ++ y)) : Q y := by
  induction x with
  | nil => exact h
  | cons c x ih => exact ih (hQ c _ h)

namespace StaysBefore

variable {p q : Pattern} {s : Text} {Q : Text → Prop}

theorem one (hQ : HasEnds Q) {ok : Char → Bool} (hs : ∀ d ∈ s.head?, ok d = false) :
    (Pattern.one ok).StaysBefore s Q := by
  intro c k k' hc hk
  obtain ⟨before, rest, slots⟩ := c
  cases rest with
  | nil =>
    cases s with
    | nil => rfl
    | cons d s => simp [run, Cursor.followed, hs d (by simp)]
  | cons d rest =>
    by_cases hd : ok d = true
    · simpa [run, Cursor.followed, hd, Cursor.next] using hk (Cursor.next ⟨before, d :: rest, slots⟩ d rest) (hQ d rest hc)
    · simp [run, Cursor.followed, hd]

theorem append (hp : p.StaysBefore s Q) (hq : q.StaysBefore s Q) : (p ++ q).StaysBefore s Q :=
  fun c _ _ hc hk => hp c _ _ hc fun t ht => hq t _ _ ht hk

theorem alt (hp : p.StaysBefore s Q) (hq : q.StaysBefore s Q) : (Pattern.alt p q).StaysBefore s Q := by
  intro c k k' hc hk
  rw [run_alt, run_alt, hp c k k' hc hk, hq c k k' hc hk, Option.map_or]

theorem done : Pattern.done.StaysBefore s Q := fun c _ _ hc hk => hk c hc

theorem capture (hp : p.StaysBefore s Q) (label : String) :
    (Pattern.capture label p).StaysBefore s Q :=
  fun c _ _ hc hk => hp c _ _ hc fun t ht => hk { t with slots := (label, c.rest, t.rest) :: t.slots } ht

theorem many (hp : p.StaysBefore s Q) (hless : p.Consumes) : (Pattern.many p).StaysBefore s Q := by
  intro c k k' hc hk
  have hrounds : ∀ n (c : Cursor), Q c.rest →
      greedily p.run n (c.followed s) k = (greedily p.run n c k').map (·.followed s) := by
    intro n
    induction n with
    | zero => exact hk
    | succ n ih =>
      intro c hc
      rw [greedily_succ, greedily_succ, hp c _ _ hc ih, hk c hc, Option.map_or]
  have hfuel : greedily p.run c.rest.length c k' = greedily p.run (c.followed s).rest.length c k' :=
    greedily_fuel hless le_rfl (by simp [Cursor.followed])
  rw [run, run, hfuel]
  exact hrounds _ c hc

theorem fewest (hp : p.StaysBefore s Q) (hless : p.Consumes) :
    (Pattern.fewest p).StaysBefore s Q := by
  intro c k k' hc hk
  have hrounds : ∀ n (c : Cursor), Q c.rest →
      reluctantly p.run n (c.followed s) k = (reluctantly p.run n c k').map (·.followed s) := by
    intro n
    induction n with
    | zero => exact hk
    | succ n ih =>
      intro c hc
      rw [reluctantly_succ, reluctantly_succ, hp c _ _ hc ih, hk c hc, Option.map_or]
  have hfuel : reluctantly p.run c.rest.length c k' =
      reluctantly p.run (c.followed s).rest.length c k' :=
    reluctantly_fuel hless le_rfl (by simp [Cursor.followed])
  rw [run, run, hfuel]
  exact hrounds _ c hc

theorem lit (hQ : HasEnds Q) {w : Text} (hw : ∀ d ∈ s.head?, d ∉ w) :
    (Pattern.lit w).StaysBefore s Q := by
  have hone : ∀ c ∈ w, (Pattern.one (· == c)).StaysBefore s Q := fun c hc =>
    one hQ fun d hd => by simpa using fun heq : d = c => hw d hd (heq ▸ hc)
  clear hw
  induction w with
  | nil => exact done
  | cons c w ih =>
    cases w with
    | nil => exact hone c (by simp)
    | cons e w => exact (hone c (by simp)).append (ih fun d hd => hone d (by simp [hd]))

theorem at?_append (hp : p.StaysBefore s Q) (b : Option Char) {x : Text} (hx : Q x) :
    p.at? b (x ++ s) = (p.at? b x).map (·.followed s) :=
  hp ⟨b, x, []⟩ some some hx fun _ _ => rfl

/-- The matches on both sides of a border are replaced apart, if what replaces a match depends only
on what has been captured. -/
theorem replace_append {c : Char} (hp : p.StaysBefore (c :: s) Q) (hQ : HasEnds Q)
    (hless : p.Consumes) (hblind : p.Unaware) (hborder : ∀ b, p.at? b (c :: s) = none)
    {g : Cursor → Text} (hg : ∀ t, g (t.followed (c :: s)) = g t) {x : Text} (hx : Q x) :
    p.replace (fun h => g h.stop) (x ++ c :: s) =
      p.replace (fun h => g h.stop) x ++ c :: p.replace (fun h => g h.stop) s := by
  have hall : ∀ b, Q x →
      p.rewritten g b (x ++ c :: s) = p.rewritten g b x ++ c :: p.rewritten g none s := by
    intro b
    refine cutFrom_induction hless (motive := fun b x => Q x →
      p.rewritten g b (x ++ c :: s) = p.rewritten g b x ++ c :: p.rewritten g none s)
      (fun b _ => ?_) (fun b d x hat ih hx => ?_) (fun b m stop hm hat ih hx => ?_) b x
    · rw [List.nil_append, rewritten_gap hless g (hborder b), rewritten_nil hless,
        hblind.rewritten_eq g (some c) none, List.nil_append]
    · have hat' := hp.at?_append b hx
      rw [hat, Option.map_none, List.cons_append] at hat'
      rw [List.cons_append, rewritten_gap hless g hat', rewritten_gap hless g hat, ih (hQ d x hx),
        List.cons_append]
    · have hat' := hp.at?_append b hx
      rw [hat, Option.map_some, List.append_assoc] at hat'
      rw [List.append_assoc, rewritten_hit hless g hm hat' rfl, rewritten_hit hless g hm hat rfl, hg,
        ih (hQ.of_append hx), List.append_assoc]
  exact hall none hx

end StaysBefore

end Pattern

end LatexPreview
