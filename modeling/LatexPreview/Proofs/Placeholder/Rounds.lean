import Mathlib
import LatexPreview.Proofs.Placeholder.Mentions

/-!
# The loop of passes

Contents may mention any tokens: their own, each other's in circles, tokens that do not exist.
Putting them back is a loop all the same, which comes to an end.  A pass that puts nothing back
leaves the text as it is, and has the unused tokens added to it.  The first of them may be swallowed
by the end of the text, if that reads like a token together with it, and when it is the only
one, the next pass puts nothing back either.  But then the same tokens are added once more, and
behind a token nothing can be swallowed.

* `Puts`, `Resolves`: a pass, and the loop with no bound on its passes, with what they put back
* `exists_hit_behind_low`: a token behind two low lines is found by a search
* `resolveFrom_resolves`: each number takes at most three passes
* `resolve_puts_each_once`: the loop ends in the resolved text, and has put back every content once
-/

namespace LatexPreview

open Pattern

namespace PlaceholderTable

/-! ## Passes and their loop -/

/-- One pass over the hits of a search, with the numbers used before it: what matches is kept,
unless it is the token of a number that has not been used; then the content is put in its place.
The log lists these numbers. -/
inductive Puts (t : PlaceholderTable) : List Nat → List Hit → Text → List Nat → Text → Prop
  | tail (used : List Nat) (s : Text) : Puts t used [] s [] s
  | kept {used log : List Nat} {h : Hit} {hits : List Hit} {s out : Text}
      (known : ∀ n < t.size, h.matched = placeholder t.name n → n ∈ used)
      (later : Puts t used hits s log out) :
      Puts t used (h :: hits) s log (h.gap ++ h.matched ++ out)
  | put {used log : List Nat} {h : Hit} {hits : List Hit} {s out content : Text} {n : Nat}
      (matched : h.matched = placeholder t.name n) (fresh : n ∉ used)
      (stored : t.contents[n]? = some content) (later : Puts t (n :: used) hits s log out) :
      Puts t used (h :: hits) s (n :: log) (h.gap ++ content ++ out)

/-- One pass over a text. -/
def Pass (t : PlaceholderTable) (used : List Nat) (s : Text) (log : List Nat) (out : Text) : Prop :=
  t.Puts used ((placeholderPattern t.name).cut s).hits ((placeholderPattern t.name).cut s).tail
    log out

/-- The loop of passes until one changes nothing and no token is unused.  The log lists the numbers
whose contents have been put back, in this order. -/
inductive Resolves (t : PlaceholderTable) : List Nat → Text → List Nat → Text → Prop
  | finished {used log : List Nat} {s : Text} (pass : t.Pass used s log s)
      (all : t.unused (log.reverse ++ used) = []) : Resolves t used s log s
  | lost {used log more : List Nat} {s out : Text} (pass : t.Pass used s log s)
      (some : t.unused (log.reverse ++ used) ≠ [])
      (later : Resolves t (log.reverse ++ used) (s ++ (t.unused (log.reverse ++ used)).flatten)
        more out) :
      Resolves t used s (log ++ more) out
  | changed {used log more : List Nat} {s new out : Text} (pass : t.Pass used s log new)
      (change : new ≠ s) (later : Resolves t (log.reverse ++ used) new more out) :
      Resolves t used s (log ++ more) out

/-- Every table is made by storing its contents one after the other. -/
theorem foldl_store (name : Text) (contents : List Text) :
    contents.foldl (fun (t : PlaceholderTable) content => (t.store content).2) (empty name) =
      ⟨name, contents⟩ := by
  have hstore : ∀ (t : PlaceholderTable),
      contents.foldl (fun t content => (t.store content).2) t =
        { t with contents := t.contents ++ contents } := by
    induction contents with
    | nil => simp
    | cons content contents ih =>
      intro t
      rw [List.foldl_cons, ih]
      simp [store]
  exact hstore (empty name)

variable {t : PlaceholderTable} {used log log' : List Nat} {hits : List Hit} {s out out' : Text}

/-! ## What a pass does -/

theorem Puts.unique (h : t.Puts used hits s log out) (h' : t.Puts used hits s log' out') :
    log' = log ∧ out' = out := by
  induction h generalizing log' out' with
  | tail used s =>
    cases h'
    exact ⟨rfl, rfl⟩
  | kept known later ih =>
    cases h' with
    | kept _ later' =>
      obtain ⟨rfl, rfl⟩ := ih later'
      exact ⟨rfl, rfl⟩
    | put matched fresh stored _ =>
      obtain ⟨hlt, -⟩ := List.getElem?_eq_some_iff.1 stored
      exact absurd (known _ hlt matched) fresh
  | @put _ _ _ _ _ _ _ n matched fresh stored later ih =>
    cases h' with
    | kept known' _ =>
      obtain ⟨hlt, -⟩ := List.getElem?_eq_some_iff.1 stored
      exact absurd (known' _ hlt matched) fresh
    | put matched' _ stored' later' =>
      obtain rfl := placeholder_injective _ (matched'.symm.trans matched)
      obtain rfl := Option.some.inj (stored'.symm.trans stored)
      obtain ⟨rfl, rfl⟩ := ih later'
      exact ⟨rfl, rfl⟩

/-- What matches but is no token of the table is kept. -/
theorem expandHit_run_of_ne {h : Hit} (hne : ∀ n < t.size, h.matched ≠ placeholder t.name n)
    (used : List Nat) : (expandHit t h).run used = (h.matched, used) := by
  have hnone : t.tokens.findIdx? (· == h.matched) = none := by
    rw [List.findIdx?_eq_none_iff]
    intro token htoken
    obtain ⟨n, hn, rfl⟩ := List.mem_map.1 htoken
    exact beq_false_of_ne (hne n (List.mem_range.1 hn)).symm
  simp only [expandHit, hnone]
  rfl

/-- Replacing tokens is a pass, which adds the numbers in its log to those that have been used. -/
theorem exists_puts (t : PlaceholderTable) (used : List Nat) (hits : List Hit) (s : Text) :
    ∃ log out, t.Puts used hits s log out ∧
      ((Cut.mk hits s).replaceM (expandHit t)).run used = (out, log.reverse ++ used) := by
  induction hits generalizing used with
  | nil => exact ⟨[], s, .tail used s, rfl⟩
  | cons h hits ih =>
    rw [replaceM_cons]
    by_cases hput : ∃ n, h.matched = placeholder t.name n ∧ n < t.size ∧ n ∉ used
    · obtain ⟨n, hmatched, hn⟩ := hput
      obtain ⟨log, out, hlater, hrun⟩ := ih (n :: used)
      obtain ⟨content, hstored⟩ : ∃ content, t.contents[n]? = some content :=
        ⟨_, List.getElem?_eq_getElem hn.1⟩
      refine ⟨n :: log, _, .put hmatched hn.2 hstored hlater, ?_⟩
      simp [expandHit_run hmatched, hn, hrun, hstored]
    · obtain ⟨log, out, hlater, hrun⟩ := ih used
      have hknown : ∀ n < t.size, h.matched = placeholder t.name n → n ∈ used := fun n hlt hmatched =>
        by_contra fun hn => hput ⟨n, hmatched, hlt, hn⟩
      refine ⟨log, _, .kept hknown hlater, ?_⟩
      have hkeep : (expandHit t h).run used = (h.matched, used) := by
        by_cases htoken : ∃ n < t.size, h.matched = placeholder t.name n
        · obtain ⟨n, hlt, hmatched⟩ := htoken
          rw [expandHit_run hmatched, if_neg fun hn => hn.2 (hknown n hlt hmatched)]
        · exact expandHit_run_of_ne (fun n hlt hmatched => htoken ⟨n, hlt, hmatched⟩) used
      simp [hkeep, hrun]

theorem exists_pass (t : PlaceholderTable) (used : List Nat) (s : Text) :
    ∃ log out, t.Pass used s log out ∧ (t.expandOnce s).run used = (out, log.reverse ++ used) :=
  exists_puts t used _ _

/-- A pass that puts nothing back leaves the text as it is. -/
theorem Pass.eq_of_nil (h : t.Pass used s [] out) : out = s := by
  have hkeeps : ∀ {s : Text} {hits : List Hit} {tail : Text},
      (placeholderPattern t.name).CutsInto s hits tail → ∀ {out}, t.Puts used hits tail [] out →
        out = s := by
    intro s hits tail hc
    induction hc with
    | tail s =>
      intro out hp
      cases hp
      rfl
    | hit _ _ ih =>
      intro out hp
      cases hp with
      | kept _ later => rw [ih later]
  exact hkeeps ((placeholderPattern t.name).cut_cutsInto s) h

/-- Afterwards, the number of every token that has been found is used. -/
theorem Puts.used_of_hit (h : t.Puts used hits s log out) {g : Hit} (hg : g ∈ hits) {n : Nat}
    (hn : n < t.size) (hmatched : g.matched = placeholder t.name n) : n ∈ log ∨ n ∈ used := by
  induction h with
  | tail _ _ => exact absurd hg (by simp)
  | kept known later ih =>
    rcases List.mem_cons.1 hg with rfl | hg
    · exact .inr (known n hn hmatched)
    · exact ih hg
  | put matched _ _ later ih =>
    rcases List.mem_cons.1 hg with rfl | hg
    · obtain rfl := placeholder_injective _ (hmatched.symm.trans matched)
      exact .inl List.mem_cons_self
    · rcases ih hg with hlog | hused
      · exact .inl (List.mem_cons_of_mem _ hlog)
      · rcases List.mem_cons.1 hused with rfl | hused
        · exact .inl List.mem_cons_self
        · exact .inr hused

/-! ## Numbers that have not been used -/

/-- The numbers that have not been used. -/
def idle (t : PlaceholderTable) (used : List Nat) : List Nat :=
  (List.range t.size).filter (!used.contains ·)

theorem unused_eq (t : PlaceholderTable) (used : List Nat) :
    t.unused used = (t.idle used).map (placeholder t.name) := rfl

theorem mem_idle {n : Nat} : n ∈ t.idle used ↔ n < t.size ∧ n ∉ used := by
  simp [idle]

/-- A pass takes the numbers in its log from those that have not been used. -/
theorem Puts.perm (h : t.Puts used hits s log out) :
    (t.idle used).Perm (log ++ t.idle (log.reverse ++ used)) := by
  induction h with
  | tail _ _ => exact .refl _
  | kept _ _ ih => exact ih
  | @put used log h hits s out content n matched fresh stored later ih =>
    obtain ⟨hlt, -⟩ := List.getElem?_eq_some_iff.1 stored
    have hfirst : (t.idle used).Perm (n :: t.idle (n :: used)) :=
      perm_filter_unused List.nodup_range (mem_idle.2 ⟨hlt, fresh⟩)
    simpa using hfirst.trans (ih.cons n)

/-! ## Added tokens -/

/-- What looks like a token has no three low lines in a row. -/
theorem not_three_low {name ds : Text} (hname : TokenName name) (hne : ds ≠ []) (hds : '_' ∉ ds) :
    ¬ "___".toList <:+: tokenFront name ++ (ds ++ "__".toList) := by
  rintro ⟨v, z, h⟩
  have hlows : v ++ ('_' :: '_' :: '_' :: z) = tokenFront name ++ (ds ++ "__".toList) := by
    simpa using h
  rcases List.append_eq_append_iff.1 hlows with ⟨u, hfront, hrest⟩ | ⟨u, -, hrest⟩
  · match u with
    | [] =>
      obtain ⟨d, ds, rfl⟩ := List.exists_cons_of_ne_nil hne
      have hd : '_' = d := (List.cons.inj hrest).1
      exact hds (hd ▸ List.mem_cons_self)
    | [_] =>
      obtain ⟨d, ds, rfl⟩ := List.exists_cons_of_ne_nil hne
      have hd : '_' = d := (List.cons.inj (List.cons.inj hrest).2).1
      exact hds (hd ▸ List.mem_cons_self)
    | x :: y :: u =>
      obtain ⟨hx, hrest⟩ := List.cons.inj hrest
      obtain ⟨hy, hrest⟩ := List.cons.inj hrest
      rw [← hx, ← hy] at hfront
      -- The first two low lines are those in front of the name.
      obtain rfl := hname.two_low hfront
      obtain ⟨c, m, rfl⟩ := List.exists_cons_of_ne_nil hname.nonempty
      have hu : c :: m ++ ['_'] = u := by simpa [tokenFront] using hfront
      rw [← hu] at hrest
      have hc : '_' = c := (List.cons.inj hrest).1
      exact hname.low (hc ▸ List.mem_cons_self)
  · have hcount := congrArg (List.count '_') hrest
    rw [List.count_append, List.count_eq_zero.2 hds, List.count_append] at hcount
    simp at hcount
    omega

/-- What is left of a text that ends in two low lines. -/
theorem suffix_of_low {x w : Text} (hx : x <:+ w ++ "__".toList) (hne : x ≠ []) :
    x = ['_'] ∨ ∃ v, x = v ++ "__".toList := by
  obtain ⟨a, ha⟩ := hx
  rcases List.append_eq_append_iff.1 ha with ⟨v, -, hv⟩ | ⟨c, -, hc⟩
  · exact .inr ⟨v, hv⟩
  · match c with
    | [] => exact .inr ⟨[], hc.symm⟩
    | [_] => exact .inl (List.cons.inj hc).2.symm
    | [_, _] => exact absurd (List.cons.inj (List.cons.inj hc).2).2.symm hne
    | _ :: _ :: _ :: _ => exact absurd (List.cons.inj (List.cons.inj hc).2).2 (by simp)

/-- Nothing that looks like a token goes on into a token behind two low lines. -/
theorem exists_eq_append_of_low {name x w y m rest ds : Text} {n : Nat} (hname : TokenName name)
    (hne : ds ≠ []) (hds : '_' ∉ ds) (hm : m = tokenFront name ++ (ds ++ "__".toList))
    (hx : x <:+ w ++ "__".toList) (hsome : x ≠ [])
    (h : x ++ (placeholder name n ++ y) = m ++ rest) :
    ∃ z, x = m ++ z ∧ rest = z ++ (placeholder name n ++ y) := by
  have hthree : ¬ "___".toList <:+: m := hm ▸ not_three_low hname hne hds
  rcases List.append_eq_append_iff.1 h with ⟨u, hu, hrest⟩ | ⟨z, hz, hrest⟩
  · rw [placeholder_eq_front, tokenFront] at hrest
    rcases u with _ | ⟨c, _ | ⟨d, u⟩⟩
    · refine ⟨[], by simpa using hu.symm, ?_⟩
      simpa [placeholder_eq_front, tokenFront] using hrest.symm
    · have hc : '_' = c := (List.cons.inj hrest).1
      rcases suffix_of_low hx hsome with rfl | ⟨v, rfl⟩
      · have hlength := congrArg List.length (hm.symm.trans hu)
        simp [tokenFront] at hlength
      · exact absurd ⟨v, [], by simp [hu, ← hc]⟩ hthree
    · obtain ⟨hc, hrest⟩ := List.cons.inj hrest
      obtain ⟨hd, -⟩ := List.cons.inj hrest
      rcases suffix_of_low hx hsome with rfl | ⟨v, rfl⟩
      · exact absurd ⟨[], u, by simp [hu, ← hc, ← hd]⟩ hthree
      · exact absurd ⟨v, d :: u, by simp [hu, ← hc]⟩ hthree
  · exact ⟨z, hz, hrest⟩

/-- A search finds every token behind two low lines, whatever stands in front of them. -/
theorem exists_hit_behind_low {name x w y : Text} {n k : Nat} (hname : TokenName name)
    (hx : x <:+ w ++ "__".toList) (hk : (x ++ (placeholder name n ++ y)).length ≤ k)
    (b : Option Char) :
    ∃ h ∈ ((placeholderPattern name).cutAtMost k b (x ++ (placeholder name n ++ y))).hits,
      h.matched = placeholder name n := by
  induction k generalizing x b with
  | zero => simp [placeholder] at hk
  | succ k ih =>
    rw [cutAtMost]
    split
    · rename_i hnone
      exact absurd (first?_eq_none hnone rfl ▸ at?_placeholder name n _ y) (by simp)
    · rename_i h hf
      obtain ⟨htext, hat, hleft⟩ := first?_eq_some hf
      obtain ⟨ds, hne, hds, hmatched⟩ := found_placeholder ⟨_, matches_of_at? hat⟩
      have hm : h.matched = tokenFront name ++ (ds ++ "__".toList) := by
        rw [hmatched]
        simp [tokenFront]
      -- The match starts in front of the token or with it.
      have hgap : h.gap.length ≤ x.length := by
        by_contra hlong
        have hnone := hleft x _ rfl (by omega)
        exact absurd (hnone ▸ at?_placeholder name n _ y) (by simp)
      obtain ⟨x', rfl⟩ : h.gap <+: x :=
        List.prefix_of_prefix_length_le ⟨_, by rw [htext, List.append_assoc]⟩
          (List.prefix_append x _) hgap
      have hrest : x' ++ (placeholder name n ++ y) = h.matched ++ h.stop.rest := by simpa using htext
      by_cases hnil : x' = []
      · refine ⟨h, by simp, ?_⟩
        rw [hnil, List.nil_append, hm, placeholder_eq_front] at hrest
        have hnumber : Text.ofNat n ++ '_' :: ('_' :: y) = ds ++ '_' :: ('_' :: h.stop.rest) := by
          simpa using hrest
        obtain ⟨rfl, -⟩ := eq_of_append_cons_eq (not_mem_ofNat n) hds hnumber
        rw [hm, placeholder_eq_front]
      · have hx' : x' <:+ w ++ "__".toList := (List.suffix_append _ _).trans hx
        obtain ⟨z, rfl, hz⟩ := exists_eq_append_of_low hname hne hds hm hx' hnil hrest
        obtain ⟨g, hg, hgm⟩ := ih (x := z) ((List.suffix_append _ _).trans hx')
          (by simp [placeholder, hm, tokenFront] at hk ⊢; omega) h.stop.before
        exact ⟨g, by simp [hz, hg], hgm⟩

/-! ## The end of the loop -/

/-- The text with the unused tokens added some times. -/
def Waits (t : PlaceholderTable) (used : List Nat) (s : Text) : Nat → Prop
  | 0 => True
  | n + 1 => ∃ s', s = s' ++ (t.unused used).flatten ∧ t.Waits used s' n

/-- The unused tokens end in two low lines. -/
theorem exists_unused_eq (h : t.idle used ≠ []) :
    ∃ w, (t.unused used).flatten = w ++ "__".toList := by
  have hlast : (t.unused used).flatten = ((t.idle used).dropLast.map (placeholder t.name)).flatten ++
      placeholder t.name ((t.idle used).getLast h) := by
    rw [unused_eq]
    conv_lhs => rw [← List.dropLast_concat_getLast h]
    simp
  rw [hlast, placeholder, ← List.append_assoc]
  exact ⟨_, rfl⟩

/-- When the unused tokens have been added twice, a pass puts something back. -/
theorem Pass.ne_nil (hname : TokenName t.name) (hwaits : t.Waits used s 2)
    (h : t.Pass used s log out) (hidle : t.idle used ≠ []) : log ≠ [] := by
  rintro rfl
  obtain ⟨_, rfl, s, rfl, -⟩ := hwaits
  obtain ⟨w, hw⟩ := exists_unused_eq hidle
  obtain ⟨n, more, hn⟩ := List.exists_cons_of_ne_nil hidle
  have htokens : (t.unused used).flatten =
      placeholder t.name n ++ (more.map (placeholder t.name)).flatten := by
    rw [unused_eq, hn]
    rfl
  obtain ⟨g, hg, hmatched⟩ := exists_hit_behind_low hname (x := s ++ (t.unused used).flatten)
    (w := s ++ w) (by simp [hw]) le_rfl none
  rw [← htokens] at hg
  obtain ⟨hlt, hfresh⟩ := mem_idle.1 (show n ∈ t.idle used by simp [hn])
  rcases Puts.used_of_hit h hg hlt hmatched with hlog | hused
  · exact absurd hlog (by simp)
  · exact hfresh hused

/-- The loop takes at most three passes for each number that has not been used, and puts the
contents of all these numbers back. -/
theorem resolveFrom_resolves (hname : TokenName t.name) {fuel n : Nat}
    (hfuel : 3 * (t.idle used).length + 3 ≤ fuel + n) (hn : n ≤ 2) (hwaits : t.Waits used s n) :
    ∃ log, t.Resolves used s log (t.resolveFrom fuel used s) ∧ log.Perm (t.idle used) := by
  induction fuel generalizing used s n with
  | zero => omega
  | succ fuel ih =>
    obtain ⟨log, new, hpass, hrun⟩ := t.exists_pass used s
    have hperm := Puts.perm hpass
    have hlength := hperm.length_eq
    rw [List.length_append] at hlength
    -- A pass that puts something back leaves three more passes than are needed.
    have hput : log ≠ [] → ∀ s', ∃ more, t.Resolves (log.reverse ++ used) s' more
        (t.resolveFrom fuel (log.reverse ++ used) s') ∧ more.Perm (t.idle (log.reverse ++ used)) := by
      intro hlog s'
      have hpos := List.length_pos_iff.2 hlog
      exact ih (n := 0) (by omega) (by omega) trivial
    rw [resolveFrom, hrun]
    simp only
    split
    · rename_i hsame
      rw [hsame] at hpass
      split
      · rename_i hall
        have hidle : t.idle (log.reverse ++ used) = [] := List.map_eq_nil_iff.1 hall
        rw [hidle, List.append_nil] at hperm
        exact ⟨log, .finished hpass hall, hperm.symm⟩
      · rename_i hsome
        obtain ⟨more, hlater, hmore⟩ : ∃ more, t.Resolves (log.reverse ++ used)
            (s ++ (t.unused (log.reverse ++ used)).flatten) more
            (t.resolveFrom fuel (log.reverse ++ used)
              (s ++ (t.unused (log.reverse ++ used)).flatten)) ∧
            more.Perm (t.idle (log.reverse ++ used)) := by
          by_cases hlog : log = []
          · subst hlog
            have hidle : t.idle used ≠ [] := fun hnil => hsome (by simp [unused_eq, hnil])
            have hless : n ≠ 2 := fun htwo =>
              Pass.ne_nil hname (htwo ▸ hwaits) hpass hidle rfl
            have hwait : t.Waits used (s ++ (t.unused used).flatten) (n + 1) := ⟨s, rfl, hwaits⟩
            have hleft : 3 * (t.idle used).length + 3 ≤ fuel + (n + 1) := by omega
            exact ih hleft (by omega) hwait
          · exact hput hlog _
        exact ⟨log ++ more, .lost hpass hsome hlater, (hmore.append_left log).trans hperm.symm⟩
    · rename_i hchange
      obtain ⟨more, hlater, hmore⟩ := hput (fun hlog => hchange ((hlog ▸ hpass).eq_of_nil)) new
      exact ⟨log ++ more, .changed hpass hchange hlater, (hmore.append_left log).trans hperm.symm⟩

theorem Resolves.unique (h : t.Resolves used s log out) (h' : t.Resolves used s log' out') :
    log' = log ∧ out' = out := by
  induction h generalizing log' out' with
  | finished pass all =>
    cases h' with
    | finished pass' _ => exact Puts.unique pass pass'
    | lost pass' some _ =>
      obtain ⟨rfl, -⟩ := Puts.unique pass pass'
      exact absurd all some
    | changed pass' change _ => exact absurd (Puts.unique pass pass').2 change
  | lost pass some _ ih =>
    cases h' with
    | finished pass' all =>
      obtain ⟨rfl, -⟩ := Puts.unique pass pass'
      exact absurd all some
    | lost pass' _ later =>
      obtain ⟨rfl, -⟩ := Puts.unique pass pass'
      obtain ⟨rfl, rfl⟩ := ih later
      exact ⟨rfl, rfl⟩
    | changed pass' change _ => exact absurd (Puts.unique pass pass').2 change
  | changed pass change _ ih =>
    cases h' with
    | finished pass' _ => exact absurd (Puts.unique pass pass').2.symm change
    | lost pass' _ _ => exact absurd (Puts.unique pass pass').2.symm change
    | changed pass' _ later =>
      obtain ⟨rfl, rfl⟩ := Puts.unique pass pass'
      obtain ⟨rfl, rfl⟩ := ih later
      exact ⟨rfl, rfl⟩

theorem exists_resolves (t : PlaceholderTable) (hname : TokenName t.name) (s : Text) :
    ∃ log, t.Resolves [] s log (t.resolve s) ∧ log.Perm (List.range t.size) := by
  have hidle : t.idle [] = List.range t.size := by simp [idle]
  have hfuel : 3 * (t.idle []).length + 3 ≤ 4 * (t.size + 1) + 0 := by simp [hidle]; omega
  obtain ⟨log, hresolves, hperm⟩ := resolveFrom_resolves (s := s) hname hfuel (by omega) trivial
  exact ⟨log, hresolves, hidle ▸ hperm⟩

/-- Whatever the contents and the text are, the loop comes to an end, in the resolved text and no
other, and until then it has put every content back exactly once. -/
theorem resolve_puts_each_once (t : PlaceholderTable) (hname : TokenName t.name) (s : Text) :
    ∃ log, t.Resolves [] s log (t.resolve s) ∧
      (∀ log' out, t.Resolves [] s log' out → log' = log ∧ out = t.resolve s) ∧
      log.Perm (List.range t.size) := by
  obtain ⟨log, hresolves, hperm⟩ := t.exists_resolves hname s
  exact ⟨log, hresolves, fun _ _ h => hresolves.unique h, hperm⟩

/-- Three contents, one of which is its own token and the others each other's, and a text that
swallows the first of the tokens that are added to it. -/
theorem resolve_puts_each_once_circle :
    let contents := ["__BLK_0__".toList, "b__BLK_2__".toList, "c__BLK_1__".toList]
    let t := contents.foldl (fun (t : PlaceholderTable) content => (t.store content).2)
      (empty "BLK".toList)
    let s := "a__BLK_7".toList
    TokenName t.name ∧ t.resolve s = "a__BLK_7__BLK_0__b__BLK_2__c__BLK_1____BLK_0__".toList ∧
      ∃ log, t.Resolves [] s log (t.resolve s) ∧
        (∀ log' out, t.Resolves [] s log' out → log' = log ∧ out = t.resolve s) ∧
        log.Perm (List.range t.size) := by
  intro contents t s
  have hname : TokenName t.name := by decide
  exact ⟨hname, by decide, resolve_puts_each_once t hname s⟩

end PlaceholderTable

end LatexPreview
