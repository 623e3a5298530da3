import Mathlib
import LatexPreview.Proofs.Placeholder.Mentions

/-!
# Full expansion

Contents that mention earlier tokens only can be expanded all the way by recursion on the number
of the token.  Putting contents back in passes comes to the same, as long as every token is
mentioned once in all and the full expansion does not read like the front of a token.

* `expansion` is what stands behind a token, all the way; `expand` the same of a passage
* `unfoldOnce` is one pass on a passage, `expandOnce_passage` that it is the one on texts
* `Pending`: what is left to be mentioned, as every pass keeps it
* `resolve_eq_expand`: the resolved text is the full expansion, and no token is left in it
-/

namespace LatexPreview

open Passage Pattern

variable {name : Text} {cs : List (Passage Nat)} {g : Passage Nat} {used : List Nat}

/-! ## Expansion -/

/-- The passage behind the token with a number. -/
def behind (cs : List (Passage Nat)) (n : Nat) : Passage Nat := cs[n]?.getD []

/-- The table of some passages. -/
def passageTable (name : Text) (cs : List (Passage Nat)) : PlaceholderTable := ⟨name, cs.map (text name)⟩

/-- The content behind a token, in which each token is replaced by its own expansion. -/
def expansion (cs : List (Passage Nat)) (n : Nat) : Text :=
  (behind cs n).flatMap fun
    | .char c => [c]
    | .mention m => if _ : m < n then expansion cs m else []
termination_by n

/-- A passage in which each token is replaced by its expansion. -/
def expand (cs : List (Passage Nat)) (g : Passage Nat) : Text := fill (expansion cs) g

/-- The numbers that the content behind a token mentions. -/
def mentionedBy (cs : List (Passage Nat)) (n : Nat) : List Nat := mentions (behind cs n)

/-- Contents mention only earlier tokens, and all tokens are mentioned once, in a passage or in
the contents. -/
structure Orderly (cs : List (Passage Nat)) (g : Passage Nat) : Prop where
  earlier : ∀ n, ∀ m ∈ mentionedBy cs n, m < n
  once : (mentions g ++ cs.flatMap mentions).Perm (List.range cs.length)

theorem orderly_iff : Orderly cs g ↔
    (∀ n < cs.length, ∀ m ∈ mentionedBy cs n, m < n) ∧
      (mentions g ++ cs.flatMap mentions).Perm (List.range cs.length) := by
  refine ⟨fun h => ⟨fun n _ => h.earlier n, h.once⟩, fun h => ⟨fun n => ?_, h.2⟩⟩
  rcases Nat.lt_or_ge n cs.length with hlt | hge
  · exact h.1 n hlt
  · simp [mentionedBy, behind, hge]

instance : Decidable (Orderly cs g) := decidable_of_iff _ orderly_iff.symm

theorem expansion_eq (h : ∀ n, ∀ m ∈ mentionedBy cs n, m < n) (n : Nat) :
    expansion cs n = expand cs (behind cs n) := by
  rw [expansion, expand, fill]
  refine List.flatMap_congr fun x hx => ?_
  cases x with
  | char c => rfl
  | mention m => exact dif_pos (h n m (List.mem_filterMap.2 ⟨_, hx, rfl⟩))

/-! ## One pass on a passage -/

/-- The passage with its contents in place of the tokens. -/
def unfoldOnce (cs : List (Passage Nat)) (g : Passage Nat) : Passage Nat :=
  g.flatMap fun
    | .char c => [.char c]
    | .mention n => behind cs n

@[simp] theorem unfoldOnce_append (cs : List (Passage Nat)) (g h : Passage Nat) :
    unfoldOnce cs (g ++ h) = unfoldOnce cs g ++ unfoldOnce cs h := by
  simp [unfoldOnce]

@[simp] theorem unfoldOnce_mention (cs : List (Passage Nat)) (n : Nat) (g : Passage Nat) :
    unfoldOnce cs (.mention n :: g) = behind cs n ++ unfoldOnce cs g := rfl

@[simp] theorem unfoldOnce_ofText (cs : List (Passage Nat)) (a : Text) :
    unfoldOnce cs (ofText a) = ofText a := by
  induction a with
  | nil => rfl
  | cons c a ih => exact congrArg (.char c :: ·) ih

theorem unfoldOnce_eq_of_mentions (h : mentions g = []) : unfoldOnce cs g = g := by
  rcases eq_ofText_or g with ⟨a, rfl⟩ | ⟨a, n, gb, rfl⟩
  · simp
  · simp at h

theorem mentions_unfoldOnce (cs : List (Passage Nat)) (g : Passage Nat) :
    mentions (unfoldOnce cs g) = (mentions g).flatMap (mentionedBy cs) := by
  induction g with
  | nil => rfl
  | cons x g ih =>
    cases x with
    | char c => exact ih
    | mention n => exact (mentions_append _ _).trans (congrArg _ ih)

/-- A pass does not change the full expansion. -/
theorem expand_unfoldOnce (h : ∀ n, ∀ m ∈ mentionedBy cs n, m < n) (g : Passage Nat) :
    expand cs (unfoldOnce cs g) = expand cs g := by
  induction g with
  | nil => rfl
  | cons x g ih =>
    cases x with
    | char c => exact congrArg (c :: ·) ih
    | mention n =>
      calc expand cs (unfoldOnce cs (.mention n :: g))
          = expand cs (behind cs n) ++ expand cs (unfoldOnce cs g) := fill_append _ _ _
        _ = expansion cs n ++ expand cs g := by rw [expansion_eq h, ih]

theorem passageTable_size (name : Text) (cs : List (Passage Nat)) :
    (passageTable name cs).size = cs.length := by
  simp [passageTable, PlaceholderTable.size]

theorem passageTable_getD (name : Text) (cs : List (Passage Nat)) (n : Nat) :
    (passageTable name cs).contents[n]?.getD [] = text name (behind cs n) := by
  rw [passageTable, behind, List.getElem?_map]
  cases cs[n]? <;> rfl

/-- A pass on a text uses up the tokens that it mentions. -/
theorem expandOnce_passage (hname : TokenName name) (hg : Free name g)
    (hknown : ∀ n ∈ mentions g, n < cs.length) (hused : (mentions g ++ used).Nodup) :
    ((passageTable name cs).expandOnce (text name g)).run used =
      (text name (unfoldOnce cs g), (mentions g).reverse ++ used) := by
  have hpass : ∀ {g hits tail}, MentionCut name g hits tail → ∀ used,
      (∀ n ∈ mentions g, n < cs.length) → (mentions g ++ used).Nodup →
      ((Cut.mk hits tail).replaceM (expandHit (passageTable name cs))).run used =
        (text name (unfoldOnce cs g), (mentions g).reverse ++ used) := by
    intro g hits tail hc
    induction hc with
    | tail hnone =>
      intro used _ _
      rw [hnone, unfoldOnce_eq_of_mentions hnone]
      simp [Cut.replaceM]
      rfl
    | @hit ga gb n h hits tail hnone hgap hmatched _ ih =>
      intro used hknown hused
      obtain ⟨a, rfl⟩ : ∃ a, ga = ofText a := by
        rcases eq_ofText_or ga with h | ⟨a, m, gb, rfl⟩
        · exact h
        · simp at hnone
      simp only [mentions_append, mentions_ofText, mentions_mention, List.nil_append,
        List.cons_append, List.mem_cons, forall_eq_or_imp, List.nodup_cons] at hknown hused
      have hunused : n ∉ used := fun hmem => hused.1 (List.mem_append_right _ hmem)
      have hlater : (mentions gb ++ n :: used).Nodup :=
        List.nodup_middle.2 (List.nodup_cons.2 hused)
      rw [replaceM_cons, expandHit_run (t := passageTable name cs) hmatched, passageTable_size,
        passageTable_getD, if_pos ⟨hknown.1, hunused⟩]
      simp [ih (n :: used) hknown.2 hlater, hgap]
  exact hpass (cut_mentionCut hname hg) used hknown hused

/-! ## What is pending -/

/-- The numbers that will be mentioned later are those behind all tokens that have not been
used. -/
structure Pending (cs : List (Passage Nat)) (g : Passage Nat) (later used : List Nat) : Prop where
  all : (mentions g ++ later ++ used).Perm (List.range cs.length)
  behind : later.Perm ((mentions g ++ later).flatMap (mentionedBy cs))

theorem flatMap_mentions (cs : List (Passage Nat)) :
    cs.flatMap mentions = (List.range cs.length).flatMap (mentionedBy cs) := by
  have hall : (List.range cs.length).map (LatexPreview.behind cs) = cs :=
    List.ext_getElem (by simp) fun n hn _ => by
      have hlt : n < cs.length := by simpa using hn
      simp [LatexPreview.behind, hlt]
  conv_lhs => rw [← hall, List.flatMap_map]
  rfl

/-- At first, all tokens in contents are pending. -/
theorem Orderly.pending (h : Orderly cs g) : Pending cs g (cs.flatMap mentions) [] := by
  refine ⟨by simpa using h.once, ?_⟩
  conv_lhs => rw [flatMap_mentions]
  exact h.once.symm.flatMap_right _

namespace Pending

variable {later : List Nat}

theorem nodup (h : Pending cs g later used) : (mentions g ++ later ++ used).Nodup :=
  h.all.nodup_iff.2 List.nodup_range

theorem known (h : Pending cs g later used) {n : Nat} (hn : n ∈ mentions g ++ later ++ used) :
    n < cs.length :=
  List.mem_range.1 (h.all.mem_iff.1 hn)

/-- What a pass brings up is no longer pending. -/
theorem unfoldOnce (h : Pending cs g later used) :
    Pending cs (LatexPreview.unfoldOnce cs g) (later.flatMap (mentionedBy cs))
      ((mentions g).reverse ++ used) := by
  have hlater :
      later.Perm (mentions (LatexPreview.unfoldOnce cs g) ++ later.flatMap (mentionedBy cs)) := by
    rw [mentions_unfoldOnce, ← List.flatMap_append]
    exact h.behind
  have hused : ((mentions g).reverse ++ used).Perm (mentions g ++ used) :=
    (List.reverse_perm _).append_right _
  have hswap : (later ++ (mentions g ++ used)).Perm (mentions g ++ later ++ used) := by
    rw [← List.append_assoc]
    exact List.perm_append_comm.append_right _
  exact ⟨((hlater.symm.append hused).trans hswap).trans h.all, hlater.flatMap_right _⟩

/-- When no token is mentioned any more, none is pending: it would stand in the content of a
later one that has not been used either. -/
theorem eq_nil (h : Pending cs g later used) (hearlier : ∀ n, ∀ m ∈ mentionedBy cs n, m < n)
    (hg : mentions g = []) : later = [] := by
  refine List.eq_nil_iff_forall_not_mem.2 fun n hn => ?_
  induction hk : cs.length - n using Nat.strong_induction_on generalizing n with
  | _ k ih =>
    have hmem := h.behind.mem_iff.1 hn
    rw [hg, List.nil_append, List.mem_flatMap] at hmem
    obtain ⟨m, hm, hnm⟩ := hmem
    have hless := hearlier m n hnm
    have hlt := h.known (n := m) (by simp [hm])
    exact ih (cs.length - m) (by omega) m hm rfl

end Pending

/-! ## All passes -/

theorem unused_passageTable (hall : (List.range cs.length).Subset used) :
    (passageTable name cs).unused used = [] := by
  rw [PlaceholderTable.unused, passageTable_size, List.map_eq_nil_iff, List.filter_eq_nil_iff]
  intro n hn
  simpa using hall hn

theorem resolveFrom_passage (hname : TokenName name)
    (hearlier : ∀ n, ∀ m ∈ mentionedBy cs n, m < n) {later used : List Nat}
    (h : Pending cs g later used) (hfree : ¬ tokenFront name <:+: expand cs g) {fuel : Nat}
    (hfuel : cs.length < fuel + used.length) :
    (passageTable name cs).resolveFrom fuel used (text name g) = expand cs g := by
  induction fuel generalizing g later used with
  | zero =>
    have hlength := h.all.length_eq
    simp at hlength
    omega
  | succ fuel ih =>
    have hg : Free name g := free_of_fill hfree
    have hnodup : (mentions g ++ used).Nodup :=
      h.nodup.sublist ((List.sublist_append_left _ _).append_right _)
    rw [PlaceholderTable.resolveFrom,
      expandOnce_passage hname hg (fun n hn => h.known (by simp [hn])) hnodup]
    have hnext := h.unfoldOnce
    have hsame := expand_unfoldOnce hearlier g
    have hlater : Free name (unfoldOnce cs g) := free_of_fill (hsame ▸ hfree)
    simp only
    split
    · rename_i heq
      have hnone : mentions g = [] := by
        -- What the text mentions now has been pending, and cannot have been mentioned before.
        refine List.eq_nil_iff_forall_not_mem.2 fun n hn => ?_
        have hmem : n ∈ later := by
          refine h.behind.mem_iff.2 ?_
          rw [List.flatMap_append, ← mentions_unfoldOnce, mentions_of_text_eq hname hlater hg heq]
          exact List.mem_append_left _ hn
        exact List.disjoint_of_nodup_append (List.nodup_append.1 h.nodup).1 hn hmem
      have hused : (List.range cs.length).Subset used := by
        have hall := h.all
        rw [hnone, h.eq_nil hearlier hnone] at hall
        exact hall.symm.subset
      rw [hnone, List.reverse_nil, List.nil_append, unused_passageTable hused]
      exact fill_eq_of_mentions hnone
    · rename_i hne
      have hsome : mentions g ≠ [] := fun hnone => hne (by rw [unfoldOnce_eq_of_mentions hnone])
      have hlength := List.length_pos_iff.2 hsome
      rw [ih hnext (hsame ▸ hfree) (by simp; omega), hsame]

theorem infix_of_tokenFront {token : Text} (h : token ∈ (passageTable name cs).tokens) :
    tokenFront name <:+: token := by
  obtain ⟨n, -, rfl⟩ := List.mem_map.1 h
  rw [show (passageTable name cs).name = name from rfl, placeholder_eq_front]
  exact (List.prefix_append _ _).isInfix

theorem resolve_passage (hname : TokenName name) (h : Orderly cs g)
    (hfree : ¬ tokenFront name <:+: expand cs g) :
    (passageTable name cs).resolve (text name g) = expand cs g :=
  resolveFrom_passage hname h.earlier h.pending hfree (by simp [passageTable_size]; omega)

/-- A text that is nothing but a token becomes its content, if the name is not in this. -/
theorem resolve_single {content : Text} (hname : TokenName name) (hnone : ¬ name <:+: content) :
    PlaceholderTable.resolve ⟨name, [content]⟩ (placeholder name 0) = content := by
  let cs : List (Passage Nat) := [ofText content]
  have hearlier : ∀ n, ∀ m ∈ mentionedBy cs n, m < n := by
    rintro (_ | n) m hm
    · simp [mentionedBy, behind, cs] at hm
    · simp [mentionedBy, behind, cs] at hm
  have horderly : Orderly cs [.mention 0] := ⟨hearlier, by simp [cs]⟩
  have hexpand : expand cs [.mention 0] = content := by
    have hone : expand cs [.mention 0] = expansion cs 0 := by simp [expand]
    rw [hone, expansion_eq hearlier]
    simp [behind, cs, expand]
  have hfront : ¬ tokenFront name <:+: expand cs [.mention 0] := fun hi =>
    hnone (List.IsInfix.trans ⟨"__".toList, ['_'], by simp [tokenFront]⟩ (hexpand ▸ hi))
  have hresolve := resolve_passage hname horderly hfront
  rw [hexpand] at hresolve
  simpa [passageTable, cs, Passage.text] using hresolve

/-- If contents mention only earlier tokens, every token is mentioned once in all, and the full
expansion does not read like the front of a token, then this expansion is the resolved text, and
no token of the table is left in it. -/
theorem resolve_eq_expand (hname : TokenName name) (h : Orderly cs g)
    (hfree : ¬ tokenFront name <:+: expand cs g) :
    (passageTable name cs).resolve (text name g) = expand cs g ∧
      ∀ token ∈ (passageTable name cs).tokens,
        ¬ token <:+: (passageTable name cs).resolve (text name g) := by
  have hresolve := resolve_passage hname h hfree
  refine ⟨hresolve, fun token htoken hi => hfree ?_⟩
  exact (infix_of_tokenFront htoken).trans (hresolve ▸ hi)

/-- A list in a list, the text of which stands between the two. -/
theorem resolve_eq_expand_nested :
    let inner := ofText "<ul>b</ul>".toList
    let outer := ofText "<ul>a".toList ++ [.mention 0] ++ ofText "</ul>".toList
    let page := ofText "x ".toList ++ [.mention 1] ++ ofText " y".toList
    TokenName "BLK".toList ∧ Orderly [inner, outer] page ∧
      ¬ tokenFront "BLK".toList <:+: expand [inner, outer] page ∧
      (passageTable "BLK".toList [inner, outer]).resolve (text "BLK".toList page) =
        "x <ul>a<ul>b</ul></ul> y".toList := by
  intro inner outer page
  have hname : TokenName "BLK".toList := by decide
  have horder : Orderly [inner, outer] page := by decide
  have hinner : expansion [inner, outer] 0 = "<ul>b</ul>".toList := by
    rw [expansion_eq horder.earlier]
    rfl
  have houter : expansion [inner, outer] 1 = "<ul>a<ul>b</ul></ul>".toList := by
    rw [expansion_eq horder.earlier]
    change "<ul>a".toList ++ (expansion [inner, outer] 0 ++ "</ul>".toList) = _
    rw [hinner]
    rfl
  have hpage : expand [inner, outer] page = "x <ul>a<ul>b</ul></ul> y".toList := by
    change "x ".toList ++ (expansion [inner, outer] 1 ++ " y".toList) = _
    rw [houter]
    rfl
  have hfree : ¬ tokenFront "BLK".toList <:+: expand [inner, outer] page := by
    rw [hpage]
    decide
  exact ⟨hname, horder, hfree, (resolve_eq_expand hname horder hfree).1.trans hpage⟩

/-- Texts that do not hold the name of the table next to their tokens may hold it once contents
have been put back, and may even read like a token then. -/
theorem glued_text_reads_like_token :
    let name := "BLK".toList
    let cs : List (Passage Nat) := [ofText "LK".toList, ofText "X".toList, [.mention 1]]
    let g := ofText "__B".toList ++ [.mention 0] ++ ofText "_0".toList ++ [.mention 2]
    (name ≠ [] ∧ name.all Char.isAlpha) ∧ Orderly cs g ∧
      (∀ h ∈ g :: cs, ¬ ofText name <:+: h) ∧ expand cs g = "__BLK_0X".toList ∧
      (passageTable name cs).resolve (text name g) = "__BLK_0__BLK_1__X".toList := by
  intro name cs g
  have horder : Orderly cs g := by decide
  have h0 : expansion cs 0 = "LK".toList := by
    rw [expansion_eq horder.earlier]
    rfl
  have h1 : expansion cs 1 = "X".toList := by
    rw [expansion_eq horder.earlier]
    rfl
  have h2 : expansion cs 2 = "X".toList := by
    rw [expansion_eq horder.earlier]
    change expansion cs 1 ++ [] = _
    rw [h1]
    rfl
  refine ⟨by decide, horder, by decide, ?_, by decide⟩
  change "__B".toList ++ (expansion cs 0 ++ ("_0".toList ++ (expansion cs 2 ++ []))) = _
  rw [h0, h2]
  rfl

end LatexPreview
