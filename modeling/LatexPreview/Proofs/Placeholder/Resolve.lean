import Mathlib
import LatexPreview.Proofs.Placeholder.Search

/-!
# Putting contents back

Each pass over a text puts the contents of the tokens in it back, unless they have been used
before.  What is neither lost nor doubled by this is best seen in scripts: the tokens of the
text and of all contents that have not been used make up the same stock before and after
every pass, but for the tokens that are used up.

* `refill` is one pass on a script, `expandOnce_text` that it is the one on texts
* `refill_stock`: a pass keeps the stock of every token
* `resolveFrom_text`: what is left when no pass changes anything any more, and that there is
  enough fuel for this
* `resolve_text`: the tokens in a resolved text
-/

namespace LatexPreview

open Script Pattern

/-! ## One pass on a script -/

/-- The token of a block. -/
def blockToken (n : Nat) : Token := ⟨.block, n⟩

/-- The content behind the token with a number. -/
def contentAt (cs : List Script) (n : Nat) : Script := cs[n]?.getD []

/-- The table of some contents. -/
def blockTable (cs : List Script) : PlaceholderTable := ⟨Draft.blockName, cs.map text⟩

/-- Puts contents in place of their tokens, unless these have been used, and notes their use. -/
def refill (cs : List Script) : List Nat → Script → Script × List Nat
  | used, [] => ([], used)
  | used, .char c :: g => ((refill cs used g).1.cons (.char c), (refill cs used g).2)
  | used, .token t :: g =>
    if t.kind = .block ∧ t.number < cs.length ∧ t.number ∉ used then
      (contentAt cs t.number ++ (refill cs (t.number :: used) g).1,
        (refill cs (t.number :: used) g).2)
    else ((refill cs used g).1.cons (.token t), (refill cs used g).2)

variable {cs : List Script}

theorem refill_append (used : List Nat) (g h : Script) :
    refill cs used (g ++ h) =
      ((refill cs used g).1 ++ (refill cs (refill cs used g).2 h).1,
        (refill cs (refill cs used g).2 h).2) := by
  induction g generalizing used with
  | nil => rfl
  | cons x g ih =>
    cases x with
    | char c => simp [refill, ih]
    | token t =>
      by_cases ht : t.kind = .block ∧ t.number < cs.length ∧ t.number ∉ used
      · simp [refill, ht, ih]
      · simp [refill, ht, ih]

/-- A pass does nothing if no token is left to be used. -/
theorem refill_eq_self {used : List Nat} {g : Script}
    (h : ∀ n, blockToken n ∈ tokens g → n < cs.length → n ∈ used) :
    refill cs used g = (g, used) := by
  induction g with
  | nil => rfl
  | cons x g ih =>
    cases x with
    | char c => rw [refill, ih h]
    | token t =>
      have htail := ih fun n hn => h n (List.mem_cons_of_mem _ hn)
      rw [refill, htail, if_neg]
      rintro ⟨hk, hlt, hused⟩
      refine hused (h t.number ?_ hlt)
      rw [blockToken, ← hk]
      exact List.mem_cons_self

/-- Every token is found at its number. -/
theorem findIdx?_tokens (t : PlaceholderTable) (n : Nat) :
    t.tokens.findIdx? (· == placeholder t.name n) = if n < t.size then some n else none := by
  have hsame : ((· == placeholder t.name n) ∘ placeholder t.name) = (· == n) := by
    funext m
    rw [Function.comp_apply, Bool.eq_iff_iff, beq_iff_eq, beq_iff_eq]
    exact (placeholder_injective t.name).eq_iff
  rw [PlaceholderTable.tokens, List.findIdx?_map, hsame]
  split
  · rename_i hn
    rw [List.findIdx?_eq_some_iff_getElem]
    refine ⟨by simpa using hn, by simp, ?_⟩
    intro j hj
    simp
    omega
  · rw [List.findIdx?_eq_none_iff]
    intro x hx
    simp at hx ⊢
    omega

/-- What a pass puts in place of one token. -/
def expandHit (t : PlaceholderTable) (h : Hit) : StateM (List Nat) Text := do
  let used ← get
  match t.tokens.findIdx? (· == h.matched) with
  | none => pure h.matched
  | some n =>
    if used.contains n then pure h.matched
    else do
      set (n :: used)
      pure (t.contents[n]?.getD [])

theorem expandHit_run {t : PlaceholderTable} {h : Hit} {n : Nat}
    (hmatched : h.matched = placeholder t.name n) (used : List Nat) :
    (expandHit t h).run used =
      if n < t.size ∧ n ∉ used then (t.contents[n]?.getD [], n :: used) else (h.matched, used) := by
  have hrun : (expandHit t h).run used =
      (match t.tokens.findIdx? (· == h.matched) with
      | none => pure h.matched
      | some n =>
        if used.contains n then pure h.matched
        else do
          set (n :: used)
          pure (t.contents[n]?.getD []) : StateM (List Nat) Text).run used := rfl
  rw [hrun, hmatched, findIdx?_tokens]
  by_cases hlt : n < t.size
  · by_cases hused : n ∈ used
    · simp only [hlt, hused, not_true_eq_false, and_false, if_true, if_false]
      simp [hused]
      rfl
    · simp only [hlt, hused, not_false_eq_true, and_self, if_true]
      simp [hused]
      rfl
  · simp only [hlt, if_false, false_and]
    rfl

theorem blockTable_size (cs : List Script) : (blockTable cs).size = cs.length := by
  simp [blockTable, PlaceholderTable.size]

theorem blockTable_getD (cs : List Script) (n : Nat) :
    (blockTable cs).contents[n]?.getD [] = text (contentAt cs n) := by
  rw [blockTable, contentAt, List.getElem?_map]
  cases cs[n]? <;> rfl

/-- A pass on a text is one on its script. -/
theorem expandOnce_text {g : Script} (hg : Sealed (plain g)) (used : List Nat) :
    ((blockTable cs).expandOnce (text g)).run used =
      (text (refill cs used g).1, (refill cs used g).2) := by
  have hpass : ∀ {g hits tail}, TokenCut .block g hits tail → ∀ used,
      ((Cut.mk hits tail).replaceM (expandHit (blockTable cs))).run used =
        (text (refill cs used g).1, (refill cs used g).2) := by
    intro g hits tail hc
    induction hc with
    | tail hnone =>
      intro used
      rw [refill_eq_self fun n hn => absurd rfl (hnone _ hn)]
      simp [Cut.replaceM]
      rfl
    | @hit ga gb n h hits tail hnone hgap hmatched _ ih =>
      intro used
      have hga : refill cs used ga = (ga, used) :=
        refill_eq_self fun n hn => absurd rfl (hnone _ hn)
      rw [replaceM_cons, expandHit_run (t := blockTable cs) hmatched, blockTable_size,
        blockTable_getD, refill_append, hga, refill]
      by_cases hn : n < cs.length ∧ n ∉ used
      · simp [hn, ih, hgap]
      · simp [hn, ih, hgap, hmatched]
  exact hpass (cut_tokenCut (hg.not_name .block)) used

/-! ## What a pass keeps -/

/-- The numbers that have not been used. -/
def idle (cs : List Script) (used : List Nat) : List Nat :=
  (List.range cs.length).filter (!used.contains ·)

theorem mem_idle {used : List Nat} {n : Nat} : n ∈ idle cs used ↔ n < cs.length ∧ n ∉ used := by
  simp [idle]

theorem idle_nodup (used : List Nat) : (idle cs used).Nodup := List.nodup_range.filter _

/-- Using a number takes it away from those that have not been used. -/
theorem perm_filter_unused {l used : List Nat} (hl : l.Nodup) {n : Nat}
    (hn : n ∈ l.filter (!used.contains ·)) :
    (l.filter (!used.contains ·)).Perm (n :: l.filter (!(n :: used).contains ·)) := by
  have herase : l.filter (!(n :: used).contains ·) = (l.filter (!used.contains ·)).erase n := by
    rw [(hl.filter _).erase_eq_filter, List.filter_filter]
    refine List.filter_congr fun m _ => ?_
    by_cases hm : m = n <;> simp [hm]
  rw [herase]
  exact List.perm_cons_erase hn

theorem perm_idle {used : List Nat} {n : Nat} (hn : n ∈ idle cs used) :
    (idle cs used).Perm (n :: idle cs (n :: used)) := perm_filter_unused List.nodup_range hn

/-- How often a token stands in the contents that have not been used. -/
def heldBack (cs : List Script) (used : List Nat) (t : Token) : Nat :=
  ((idle cs used).map fun n => (tokens (contentAt cs n)).count t).sum

/-- One for a token that has been used. -/
def spent (used : List Nat) (t : Token) : Nat :=
  if t.kind = .block ∧ t.number ∈ used then 1 else 0

/-- How often a token stands in a script and in the contents that are still to be put into it,
or has been used. -/
def stock (cs : List Script) (used : List Nat) (g : Script) (t : Token) : Nat :=
  (tokens g).count t + heldBack cs used t + spent used t

/-- A pass keeps the stock of every token. -/
theorem refill_stock (used : List Nat) (g : Script) (t : Token) :
    stock cs (refill cs used g).2 (refill cs used g).1 t = stock cs used g t := by
  induction g generalizing used with
  | nil => rfl
  | cons x g ih =>
    cases x with
    | char c => exact ih used
    | token s =>
      rw [refill]
      split
      · rename_i hs
        obtain ⟨hkind, hlt, hused⟩ := hs
        have hlater := ih (s.number :: used)
        have hheld : heldBack cs used t =
            (tokens (contentAt cs s.number)).count t + heldBack cs (s.number :: used) t := by
          rw [heldBack, ((perm_idle (mem_idle.2 ⟨hlt, hused⟩)).map _).sum_eq]
          rfl
        have hspent : spent (s.number :: used) t = spent used t + if s = t then 1 else 0 := by
          by_cases hst : s = t
          · subst hst
            simp [spent, hkind, hused]
          · have hother : ¬ (t.kind = .block ∧ t.number = s.number) := by
              rintro ⟨hk, hn⟩
              refine hst ?_
              obtain ⟨k, m⟩ := s
              obtain ⟨l, n⟩ := t
              simp_all
            simp only [spent, List.mem_cons, hst, if_false, Nat.add_zero]
            refine if_congr ?_ rfl rfl
            tauto
        simp only [stock, tokens_append, tokens_token, List.count_append, List.count_cons,
          beq_iff_eq] at hlater ⊢
        omega
      · have hlater := ih used
        simp only [stock, tokens_token, List.count_cons] at hlater ⊢
        omega

/-- Afterwards, all tokens that stood in the script have been used. -/
theorem refill_used (used : List Nat) (g : Script) :
    (∀ n ∈ used, n ∈ (refill cs used g).2) ∧
      ∀ n, blockToken n ∈ tokens g → n < cs.length → n ∈ (refill cs used g).2 := by
  induction g generalizing used with
  | nil => exact ⟨fun n hn => hn, fun n hn => absurd hn (by simp)⟩
  | cons x g ih =>
    cases x with
    | char c => exact ih used
    | token t =>
      rw [refill]
      split
      · obtain ⟨hold, hnew⟩ := ih (t.number :: used)
        refine ⟨fun n hn => hold n (List.mem_cons_of_mem _ hn), fun n hn hlt => ?_⟩
        rcases List.mem_cons.1 hn with rfl | hn
        · exact hold _ (by simp [blockToken])
        · exact hnew n hn hlt
      · rename_i ht
        obtain ⟨hold, hnew⟩ := ih used
        refine ⟨hold, fun n hn hlt => ?_⟩
        rcases List.mem_cons.1 hn with rfl | hn
        · simp only [blockToken, hlt, true_and, not_not] at ht
          exact hold n ht
        · exact hnew n hn hlt

/-- A pass that changes something uses a number up. -/
theorem refill_idle (used : List Nat) (g : Script) :
    refill cs used g = (g, used) ∨
      (idle cs (refill cs used g).2).length < (idle cs used).length := by
  induction g generalizing used with
  | nil => exact .inl rfl
  | cons x g ih =>
    cases x with
    | char c =>
      rcases ih used with h | h
      · exact .inl (by rw [refill, h])
      · exact .inr h
    | token t =>
      rw [refill]
      split
      · rename_i ht
        have hless := (perm_idle (mem_idle.2 ht.2)).length_eq
        rw [List.length_cons] at hless
        refine .inr ?_
        rcases ih (t.number :: used) with h | h
        · simp only [h]
          omega
        · exact h.trans (by omega)
      · rcases ih used with h | h
        · exact .inl (by rw [h])
        · exact .inr h

/-! ## Contents that fit -/

/-- Contents that may be put anywhere and mention only contents that were stored before them. -/
structure Shelf (cs : List Script) : Prop where
  isSealed : ∀ n < cs.length, Sealed (plain (contentAt cs n))
  capped : ∀ n < cs.length, Capped (plain (contentAt cs n))
  earlier : ∀ n m, blockToken m ∈ tokens (contentAt cs n) → m < n

theorem contentAt_of_le {n : Nat} (hn : cs.length ≤ n) : contentAt cs n = [] := by
  simp [contentAt, hn]

theorem Shelf.known (hcs : Shelf cs) {n m : Nat} (h : blockToken m ∈ tokens (contentAt cs n)) :
    m < cs.length := by
  rcases Nat.lt_or_ge n cs.length with hn | hn
  · exact (hcs.earlier n m h).trans hn
  · rw [contentAt_of_le hn] at h
    exact absurd h (by simp)

theorem refill_sealed (hcs : Shelf cs) (front : Text) (used : List Nat) {g : Script}
    (h : Sealed (front ++ plain g)) : Sealed (front ++ plain (refill cs used g).1) := by
  induction g generalizing front used with
  | nil => exact h
  | cons x g ih =>
    cases x with
    | char c =>
      have hnext := ih (front ++ [c]) used (by simpa using h)
      simpa [refill] using hnext
    | token t =>
      have hlow : Neutral '_' := by decide
      rw [plain_token, sealed_append_cons hlow] at h
      rw [refill]
      split
      · rename_i ht
        have hfit := (sealed_append_capped (a := front) (b := plain g) (hcs.capped _ ht.2.1)).2
          ⟨h.1, hcs.isSealed _ ht.2.1, h.2⟩
        simpa using ih _ (t.number :: used) hfit
      · have hnext := ih (front ++ ['_']) used (by simpa [sealed_append_cons hlow] using h)
        simpa using hnext

theorem mem_refill {used : List Nat} {g : Script} {t : Token}
    (h : t ∈ tokens (refill cs used g).1) :
    t ∈ tokens g ∨ ∃ n, t ∈ tokens (contentAt cs n) := by
  induction g generalizing used with
  | nil => exact .inl h
  | cons x g ih =>
    cases x with
    | char c => exact ih h
    | token s =>
      rw [refill] at h
      split at h
      · rw [tokens_append] at h
        rcases List.mem_append.1 h with h | h
        · exact .inr ⟨_, h⟩
        · exact (ih h).imp_left (List.mem_cons_of_mem _)
      · rcases List.mem_cons.1 h with rfl | h
        · exact .inl List.mem_cons_self
        · exact (ih h).imp_left (List.mem_cons_of_mem _)

/-! ## All passes -/

/-- The contents that have not been used, one after the other. -/
def rest (cs : List Script) (used : List Nat) : Script := (idle cs used).flatMap (contentAt cs)

/-- When the lost tokens have been added, a pass puts all their contents back. -/
theorem refill_lost {used : List Nat} {g : Script}
    (hg : ∀ n, blockToken n ∈ tokens g → n < cs.length → n ∈ used) :
    refill cs used (g ++ (idle cs used).map fun n => .token (blockToken n)) =
      (g ++ rest cs used, (idle cs used).reverse ++ used) := by
  have hlost : ∀ (lost used : List Nat), lost.Nodup → (∀ n ∈ lost, n < cs.length ∧ n ∉ used) →
      refill cs used (lost.map fun n => .token (blockToken n)) =
        (lost.flatMap (contentAt cs), lost.reverse ++ used) := by
    intro lost
    induction lost with
    | nil => exact fun _ _ _ => rfl
    | cons n lost ih =>
      intro used hnodup hmem
      obtain ⟨hn, hnodup⟩ := List.nodup_cons.1 hnodup
      have hlater := ih (n :: used) hnodup fun m hm =>
        ⟨(hmem m (by simp [hm])).1, by
          rw [List.mem_cons, not_or]
          exact ⟨fun h => hn (h ▸ hm), (hmem m (by simp [hm])).2⟩⟩
      rw [List.map_cons, refill, if_pos ⟨rfl, hmem n (by simp)⟩,
        show (blockToken n).number = n from rfl, hlater]
      simp
  rw [refill_append, refill_eq_self hg,
    hlost _ _ (idle_nodup used) fun n hn => mem_idle.1 hn]
  rfl

theorem idle_after (used : List Nat) : idle cs ((idle cs used).reverse ++ used) = [] := by
  refine List.eq_nil_iff_forall_not_mem.2 fun n hn => ?_
  obtain ⟨hlt, hused⟩ := mem_idle.1 hn
  simp only [List.mem_append, List.mem_reverse, not_or] at hused
  exact hused.1 (mem_idle.2 ⟨hlt, hused.2⟩)

/-- The tokens of the contents that have not been used. -/
def lostTokensOf (cs : List Script) (used : List Nat) : Script :=
  (idle cs used).map fun n => .token (blockToken n)

theorem unused_text (cs : List Script) (used : List Nat) :
    ((blockTable cs).unused used).flatten = text (lostTokensOf cs used) ∧
      ((blockTable cs).unused used = [] ↔ idle cs used = []) := by
  have hunused : (blockTable cs).unused used = (idle cs used).map fun n => (blockToken n).text := by
    rw [PlaceholderTable.unused, blockTable_size]
    rfl
  rw [hunused]
  refine ⟨?_, List.map_eq_nil_iff⟩
  rw [lostTokensOf, text, List.flatMap_map, List.flatMap_def]
  rfl

theorem sealed_append_lostTokensOf (cs : List Script) {g : Script} (hg : Sealed (plain g))
    (used : List Nat) :
    Sealed (plain (g ++ lostTokensOf cs used)) := by
  have hplain : plain (lostTokensOf cs used) = (idle cs used).map fun _ => '_' := by
    simp [plain, lostTokensOf, Function.comp_def, Glyph.plain]
  have hquiet : ∀ l : List Nat, Quiet (l.map fun _ => '_') := by
    intro l c hc
    obtain ⟨-, -, rfl⟩ := List.mem_map.1 hc
    decide
  rw [plain_append, hplain]
  cases idle cs used with
  | nil => simpa using hg
  | cons n lost =>
    rw [List.map_cons, sealed_append_cons (by decide)]
    exact ⟨hg, (hquiet lost).sealed⟩

/-- One pass of the loop. -/
theorem resolveFrom_succ {g : Script} (hg : Sealed (plain g)) (fuel : Nat) (used : List Nat) :
    (blockTable cs).resolveFrom (fuel + 1) used (text g) =
      if text (refill cs used g).1 = text g then
        if idle cs (refill cs used g).2 = [] then text g
        else (blockTable cs).resolveFrom fuel (refill cs used g).2
          (text (g ++ lostTokensOf cs (refill cs used g).2))
      else (blockTable cs).resolveFrom fuel (refill cs used g).2 (text (refill cs used g).1) := by
  obtain ⟨hflat, hnil⟩ := unused_text cs (refill cs used g).2
  rw [PlaceholderTable.resolveFrom, expandOnce_text hg used]
  simp only
  split
  · cases hlost : (blockTable cs).unused (refill cs used g).2 with
    | nil => rw [if_pos (hnil.1 hlost)]
    | cons token lost =>
      have hidle : idle cs (refill cs used g).2 ≠ [] := fun h => by simp [hnil.2 h] at hlost
      rw [if_neg hidle, text_append, ← hflat, hlost]
  · rfl

/-- Two passes finish a text whose tokens have all been used and to which the lost ones have
been added. -/
theorem resolveFrom_lost (hcs : Shelf cs) {g : Script} (hg : Sealed (plain g))
    {used : List Nat} (hused : ∀ n, blockToken n ∈ tokens g → n < cs.length → n ∈ used)
    (fuel : Nat) :
    (blockTable cs).resolveFrom (fuel + 2) used (text (g ++ lostTokensOf cs used)) =
      text (g ++ rest cs used) ∧ Sealed (plain (g ++ rest cs used)) := by
  have hlost := refill_lost hused
  have hadded := sealed_append_lostTokensOf cs hg used
  have hsealed : Sealed (plain (g ++ rest cs used)) := by
    have h := refill_sealed hcs [] used hadded
    rwa [lostTokensOf, hlost] at h
  have hdone : refill cs ((idle cs used).reverse ++ used) (g ++ rest cs used) =
      (g ++ rest cs used, (idle cs used).reverse ++ used) := by
    refine refill_eq_self fun n _ hn => ?_
    by_contra hno
    exact absurd (mem_idle.2 ⟨hn, hno⟩) (by simp [idle_after])
  refine ⟨?_, hsealed⟩
  rw [resolveFrom_succ hadded, lostTokensOf, hlost]
  simp only [idle_after, if_true]
  split
  · rename_i heq
    exact heq.symm
  · rw [resolveFrom_succ hsealed, hdone]
    simp [idle_after]

/-- What is left when no pass changes anything any more: the tokens in it have all been used, and
the contents that have not been used follow at the end. -/
theorem resolveFrom_text (hcs : Shelf cs) {g : Script} (hg : Sealed (plain g))
    (hknown : ∀ n, blockToken n ∈ tokens g → n < cs.length) {fuel : Nat} (used : List Nat)
    (hfuel : (idle cs used).length + 3 ≤ fuel) :
    ∃ g' used', (blockTable cs).resolveFrom fuel used (text g) = text (g' ++ rest cs used') ∧
      Sealed (plain (g' ++ rest cs used')) ∧ (∀ t, stock cs used' g' t = stock cs used g t) ∧
      ∀ n, blockToken n ∈ tokens g' → n ∈ used' := by
  induction fuel generalizing g used with
  | zero => omega
  | succ fuel ih =>
    rw [resolveFrom_succ hg]
    have hnew : Sealed (plain (refill cs used g).1) := refill_sealed hcs [] used hg
    have hnewKnown : ∀ n, blockToken n ∈ tokens (refill cs used g).1 → n < cs.length := by
      intro n hn
      rcases mem_refill hn with hn | ⟨m, hn⟩
      · exact hknown n hn
      · exact hcs.known hn
    split
    · rename_i heq
      have hused : ∀ n, blockToken n ∈ tokens (refill cs used g).1 →
          n ∈ (refill cs used g).2 := by
        intro n hn
        have hold : blockToken n ∈ tokens g := by
          rw [← infix_text hg, ← heq, infix_text hnew]
          exact hn
        exact (refill_used used g).2 n hold (hknown n hold)
      split
      · rename_i hidle
        have hrest : rest cs (refill cs used g).2 = [] := by simp [rest, hidle]
        exact ⟨(refill cs used g).1, (refill cs used g).2, by simp [hrest, heq],
          by simpa [hrest] using hnew, refill_stock used g, hused⟩
      · obtain ⟨fuel, rfl⟩ : ∃ k, fuel = k + 2 := ⟨fuel - 2, by omega⟩
        obtain ⟨hresolve, hsealed⟩ :=
          resolveFrom_lost hcs hnew (fun n hn _ => hused n hn) fuel
        refine ⟨(refill cs used g).1, (refill cs used g).2, ?_, hsealed, refill_stock used g, hused⟩
        rw [text_append, ← heq, ← text_append, hresolve]
    · rename_i hne
      rcases refill_idle used g with h | h
      · exact absurd (by rw [h]) hne
      · obtain ⟨g', used', hresolve, hsealed, hstock, hused⟩ :=
          ih hnew hnewKnown (refill cs used g).2 (by omega)
        exact ⟨g', used', hresolve, hsealed, fun t => (hstock t).trans (refill_stock used g t), hused⟩

/-! ## Tokens in a resolved text -/

theorem map_contentAt_range (cs : List Script) : (List.range cs.length).map (contentAt cs) = cs := by
  refine List.ext_getElem (by simp) fun n hn _ => ?_
  have hlt : n < cs.length := by simpa using hn
  simp [contentAt, hlt]

theorem idle_nil (cs : List Script) : idle cs [] = List.range cs.length := by
  simp [idle]

/-- How often a token stands in a script and in all contents. -/
def standing (cs : List Script) (g : Script) (t : Token) : Nat :=
  (tokens g).count t + (tokens cs.flatten).count t

theorem count_tokens_flatMap (l : List Nat) (f : Nat → Script) (t : Token) :
    (tokens (l.flatMap f)).count t = (l.map fun n => (tokens (f n)).count t).sum := by
  induction l with
  | nil => rfl
  | cons n l ih => simp [ih]

theorem stock_nil (g : Script) (t : Token) : stock cs [] g t = standing cs g t := by
  have hall : tokens cs.flatten = tokens ((List.range cs.length).flatMap (contentAt cs)) := by
    rw [List.flatMap_def, map_contentAt_range]
  rw [standing, hall, count_tokens_flatMap, stock, heldBack, idle_nil]
  simp [spent]

theorem count_rest (used : List Nat) (t : Token) :
    (tokens (rest cs used)).count t = heldBack cs used t := count_tokens_flatMap _ _ t

theorem mem_rest {used : List Nat} {t : Token} :
    t ∈ tokens (rest cs used) ↔ ∃ n ∈ idle cs used, t ∈ tokens (contentAt cs n) := by
  simp only [rest, tokens, List.mem_filterMap, List.mem_flatMap]
  constructor
  · rintro ⟨x, ⟨n, hn, hx⟩, ht⟩
    exact ⟨n, hn, x, hx, ht⟩
  · rintro ⟨n, hn, x, hx, ht⟩
    exact ⟨x, ⟨n, hn, hx⟩, ht⟩

/-- What is left of a script when no pass changes anything any more. -/
structure Settled (cs : List Script) (g g' : Script) (used : List Nat) : Prop where
  count : ∀ t, (tokens g').count t + (tokens (rest cs used)).count t + spent used t =
    standing cs g t
  used_of_mem : ∀ n, blockToken n ∈ tokens g' → n ∈ used

theorem Settled.idle_of_lost {g g' : Script} {used : List Nat} (h : Settled cs g g' used) {n : Nat}
    (hn : n < cs.length) (hlost : standing cs g (blockToken n) = 0) : n ∈ idle cs used := by
  refine mem_idle.2 ⟨hn, fun hmem => ?_⟩
  have hcount := h.count (blockToken n)
  simp only [spent, blockToken, hmem, and_self, if_true] at hcount hlost
  omega

/-- Of the contents that are left over, the last one that mentions a block has been lost, since
only later ones could mention it. -/
theorem Settled.exists_lost {g g' : Script} {used : List Nat} (h : Settled cs g g' used)
    (hcs : Shelf cs) {n : Nat} (hn : n ∈ idle cs used)
    (hmention : ∃ t ∈ tokens (contentAt cs n), t.kind = .block) :
    ∃ n < cs.length, standing cs g (blockToken n) = 0 ∧
      ∃ t ∈ tokens (contentAt cs n), t.kind = .block := by
  induction hk : cs.length - n using Nat.strong_induction_on generalizing n with
  | _ k ih =>
    obtain ⟨hlt, hfree⟩ := mem_idle.1 hn
    by_cases hrest : blockToken n ∈ tokens (rest cs used)
    · obtain ⟨m, hm, hmem⟩ := mem_rest.1 hrest
      have hless := hcs.earlier m n hmem
      exact ih (cs.length - m) (by omega) hm ⟨_, hmem, rfl⟩ rfl
    · refine ⟨n, hlt, ?_, hmention⟩
      have hfront : blockToken n ∉ tokens g' := fun hmem => hfree (h.used_of_mem n hmem)
      rw [← h.count, List.count_eq_zero.2 hfront, List.count_eq_zero.2 hrest]
      simp [spent, blockToken, hfree]

/-- Tokens of blocks are left if and only if they stand in the content of a block whose own token
has been lost. -/
theorem Settled.blocks_left {g g' : Script} {used : List Nat} (h : Settled cs g g' used)
    (hcs : Shelf cs) (honce : ∀ n, standing cs g (blockToken n) ≤ 1) :
    (∃ t ∈ tokens (g' ++ rest cs used), t.kind = .block) ↔
      ∃ n < cs.length, standing cs g (blockToken n) = 0 ∧
        ∃ t ∈ tokens (contentAt cs n), t.kind = .block := by
  constructor
  · rintro ⟨⟨k, m⟩, ht, hkind⟩
    obtain rfl : k = .block := hkind
    rw [tokens_append] at ht
    rcases List.mem_append.1 ht with hfront | hrest
    · -- A token that has been used stands in the script no more.
      have hpos := List.count_pos_iff.2 hfront
      have hcount := h.count ⟨.block, m⟩
      have hle := honce m
      simp only [spent, h.used_of_mem m hfront, and_self, if_true] at hcount
      rw [blockToken] at hle
      omega
    · obtain ⟨n, hn, hmem⟩ := mem_rest.1 hrest
      exact h.exists_lost hcs hn ⟨_, hmem, rfl⟩
  · rintro ⟨n, hn, hlost, t, ht, hkind⟩
    refine ⟨t, ?_, hkind⟩
    rw [tokens_append]
    exact List.mem_append_right _ (mem_rest.2 ⟨n, h.idle_of_lost hn hlost, ht⟩)

/-- A resolved text holds each token for math as often as the text and all contents together did.
Tokens of blocks are left in it if and only if they stand in the content of a block whose own
token has been lost. -/
theorem resolve_text (hcs : Shelf cs) {g : Script} (hg : Sealed (plain g))
    (hknown : ∀ n, blockToken n ∈ tokens g → n < cs.length)
    (honce : ∀ n, standing cs g (blockToken n) ≤ 1) :
    ∃ r, (blockTable cs).resolve (text g) = text r ∧ Sealed (plain r) ∧
      (∀ n, (tokens r).count ⟨.math, n⟩ = standing cs g ⟨.math, n⟩) ∧
      ((∃ t ∈ tokens r, t.kind = .block) ↔ ∃ n < cs.length, standing cs g (blockToken n) = 0 ∧
        ∃ t ∈ tokens (contentAt cs n), t.kind = .block) := by
  have hfuel : (idle cs []).length + 3 ≤ 4 * ((blockTable cs).size + 1) := by
    simp only [idle_nil, blockTable, PlaceholderTable.size, List.length_range, List.length_map]
    omega
  obtain ⟨g', used, hresolve, hsealed, hstock, hused⟩ := resolveFrom_text hcs hg hknown [] hfuel
  have hsettled : Settled cs g g' used := by
    refine ⟨fun t => ?_, hused⟩
    rw [count_rest, ← stock_nil, ← hstock]
    rfl
  refine ⟨g' ++ rest cs used, hresolve, hsealed, fun n => ?_, hsettled.blocks_left hcs honce⟩
  have hmath := hsettled.count ⟨.math, n⟩
  simp only [spent, reduceCtorEq, false_and, if_false] at hmath
  rw [tokens_append, List.count_append]
  omega

end LatexPreview
