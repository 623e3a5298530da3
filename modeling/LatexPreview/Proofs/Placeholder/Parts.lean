import Mathlib
import LatexPreview.Proofs.Placeholder.Search

/-!
# Parts of a script

A stage takes parts out of a text.  This file follows the tokens from a match to the parts
it captures, and looks at what is left when commands have been taken out.

* `Within` compares tokens: none is new, and those that are watched do not become more
* `Padded` scripts have the tokens of blocks at the beginnings of lines
* `erase_script`, `eraseFirst_script`: commands may be taken out of a sealed script
* `frames_script`: a captured part is a script between two characters of the match
* `argument_script`: the argument of a command has tokens for math only
-/

namespace LatexPreview

open Script Pattern

/-! ## Comparing tokens -/

/-- No token of the first list is new, and watched tokens are not more. -/
structure Within (watched : Token → Prop) (a b : List Token) : Prop where
  count_le : ∀ t, watched t → a.count t ≤ b.count t
  subset : a ⊆ b

namespace Within

variable {watched : Token → Prop} {a b c d : List Token}

theorem refl (a : List Token) : Within watched a a := ⟨fun _ _ => le_rfl, fun _ h => h⟩

theorem trans (h : Within watched a b) (k : Within watched b c) : Within watched a c :=
  ⟨fun t ht => (h.count_le t ht).trans (k.count_le t ht), fun _ ht => k.subset (h.subset ht)⟩

theorem append (h : Within watched a b) (k : Within watched c d) :
    Within watched (a ++ c) (b ++ d) := by
  refine ⟨fun t ht => ?_, List.append_subset.2 ⟨?_, ?_⟩⟩
  · rw [List.count_append, List.count_append]
    exact Nat.add_le_add (h.count_le t ht) (k.count_le t ht)
  · exact fun t ht => List.mem_append_left _ (h.subset ht)
  · exact fun t ht => List.mem_append_right _ (k.subset ht)

theorem of_sublist (h : a.Sublist b) : Within watched a b :=
  ⟨fun t _ => h.count_le t, h.subset⟩

theorem nil : Within watched [] a := of_sublist (List.nil_sublist a)

end Within

/-! ## Tokens at the beginnings of lines -/

/-- Every token of a block stands behind the end of a line. -/
def Padded (g : Script) : Prop :=
  ∀ a t b, g = a ++ .token t :: b → t.kind = .block → ∃ a', a = a' ++ [.char '\n']

theorem Padded.append {g h : Script} (hg : Padded g) (hh : Padded h) : Padded (g ++ h) := by
  intro a t b hsplit ht
  rcases append_eq_append_cons hsplit with ⟨a', rfl, hlater⟩ | ⟨b', hfirst, -⟩
  · obtain ⟨a'', rfl⟩ := hh a' t b hlater ht
    exact ⟨g ++ a'', by simp⟩
  · exact hg a t b' hfirst ht

theorem Padded.left {g h : Script} (hgh : Padded (g ++ h)) : Padded g := by
  intro a t b hsplit ht
  exact hgh a t (b ++ h) (by simp [hsplit]) ht

/-- What follows a character within a line starts with no token of a block. -/
theorem Padded.right {g h : Script} {c : Char} (hgh : Padded (g ++ .char c :: h)) (hc : c ≠ '\n') :
    Padded h := by
  intro a t b hsplit ht
  obtain ⟨a', ha⟩ := hgh (g ++ .char c :: a) t b (by simp [hsplit]) ht
  rcases List.eq_nil_or_concat a with rfl | ⟨a'', x, rfl⟩
  · have hlast := congrArg List.getLast? ha
    exact absurd (by simpa using hlast) hc
  · refine ⟨a'', ?_⟩
    have hlast := congrArg List.getLast? ha
    have hx : x = .char '\n' := by simpa [List.getLast?_append, List.getLast?_cons] using hlast
    rw [hx, List.concat_eq_append]

/-- A part that starts with a character within a line. -/
theorem Padded.part {gf gm gr : Script} (h : Padded (gf ++ gm ++ gr)) {c : Char}
    (hfirst : ∃ m, gm = .char c :: m) (hc : c ≠ '\n') : Padded gm := by
  obtain ⟨m, rfl⟩ := hfirst
  have hrest : Padded m := h.left.right hc
  intro a t b hsplit ht
  rcases a with _ | ⟨x, a⟩
  · exact absurd (List.cons.inj hsplit).1 (by simp)
  · obtain ⟨-, hm⟩ := List.cons.inj hsplit
    obtain ⟨a', rfl⟩ := hrest a t b hm ht
    exact ⟨x :: a', rfl⟩

theorem padded_of_math {g : Script} (hg : ∀ t ∈ tokens g, t.kind = .math) : Padded g := by
  rintro a t b rfl ht
  rw [hg t (by simp)] at ht
  exact absurd ht (by simp)

/-- No token of a block stands within a line. -/
theorem Padded.kind_eq_math {g : Script} (hg : Padded g) (hline : '\n' ∉ text g) :
    ∀ t ∈ tokens g, t.kind = .math := by
  intro t ht
  obtain ⟨a, b, rfl⟩ := exists_of_mem_tokens ht
  cases hk : t.kind with
  | math => rfl
  | block =>
    obtain ⟨a', rfl⟩ := hg a t b rfl hk
    exact absurd (by simp) hline

/-! ## Taking commands out -/

/-- The characters that matches start and end with: of no token, and within a line. -/
def Edge (c : Char) : Prop := ¬ TokenChar c ∧ c ≠ '\n'

instance (c : Char) : Decidable (Edge c) := inferInstanceAs (Decidable (_ ∧ _))

/-- Characters of no token at the front of the text are the front of the script. -/
theorem text_eq_append {g : Script} {w m : Text} (hw : ∀ c ∈ w, ¬ TokenChar c)
    (h : text g = w ++ m) : ∃ g', g = ofText w ++ g' ∧ text g' = m := by
  induction w generalizing g with
  | nil => exact ⟨g, rfl, h⟩
  | cons c w ih =>
    have hc : c ≠ '_' := by
      rintro rfl
      exact hw '_' (by simp) (.inl rfl)
    obtain ⟨g₁, rfl, hg₁⟩ := text_eq_cons hc h
    obtain ⟨g', rfl, hg'⟩ := ih (fun d hd => hw d (by simp [hd])) hg₁
    exact ⟨g', rfl, hg'⟩

/-- A command may be taken out of a sealed script. -/
theorem sealed_of_deleted {gf gm gr : Script} (hlead : ∃ w ∈ takenOut, ∃ m, text gm = w ++ m)
    (h : Sealed (plain (gf ++ gm ++ gr))) : Sealed (plain (gf ++ gr)) := by
  obtain ⟨w, hw, m, hm⟩ := hlead
  have hchars : ∀ c ∈ w, ¬ TokenChar c := by
    have hall : takenOut.all (fun w => w.all fun c => decide (¬ TokenChar c)) = true := by
      decide
    simpa using List.all_eq_true.1 hall w hw
  obtain ⟨g', rfl, -⟩ := text_eq_append hchars hm
  rw [plain_append]
  exact sealed_append_of_deleted (m := plain g') hw (by simpa using h)

theorem padded_of_deleted {gf gm gr : Script} {e : Char} (hlast : ∃ m, gm = m ++ [.char e])
    (he : e ≠ '\n') (h : Padded (gf ++ gm ++ gr)) : Padded (gf ++ gr) := by
  obtain ⟨m, rfl⟩ := hlast
  have hfront : Padded gf := by
    rw [List.append_assoc] at h
    exact h.left
  have hrest : Padded ((gf ++ m) ++ .char e :: gr) := by simpa using h
  exact hfront.append (hrest.right he)

/-- What is left of a script when commands have been taken out of it. -/
structure Erased (g g' : Script) : Prop where
  sublist : g'.Sublist g
  isSealed : Sealed (plain g')
  padded : Padded g → Padded g'

section Erase

variable {p : Pattern} {cs : List Char} (hopens : p.Opens '\\') (hleads : p.Leads takenOut)
  (hcloses : p.ClosesIn cs) (hcs : ∀ e ∈ cs, Edge e)

include hopens hleads hcloses hcs

theorem erased_step {g : Script} (front : Text) (h : Hit) (hf : p.Found h)
    (hleft : ∃ g', front ++ h.matched ++ h.stop.rest = text g' ∧ Erased g g') :
    ∃ g', front ++ h.stop.rest = text g' ∧ Erased g g' := by
  obtain ⟨g', htext, herased⟩ := hleft
  obtain ⟨x, hfirst⟩ := hopens.found hf
  obtain ⟨y, e, he, hlast⟩ := hcloses.found hf
  obtain ⟨gf, gm, gr, rfl, rfl, hgm, hgr, -, hlast'⟩ :=
    split_part htext.symm hfirst (by decide) hlast (hcs e he).1
  refine ⟨gf ++ gr, by simp [hgr], ?_, ?_, fun hg => ?_⟩
  · refine List.Sublist.trans ?_ herased.sublist
    rw [List.append_assoc]
    exact (List.Sublist.refl gf).append (List.sublist_append_right gm gr)
  · exact sealed_of_deleted (hgm ▸ hleads.found hf) herased.isSealed
  · exact padded_of_deleted hlast' (hcs e he).2 (herased.padded hg)

theorem erase_script {g : Script} (hg : Sealed (plain g)) :
    ∃ g', p.erase (text g) = text g' ∧ Erased g g' := by
  refine replace_keeps (P := fun s => ∃ g', s = text g' ∧ Erased g g') ?_
    ⟨g, rfl, .refl g, hg, id⟩
  intro front h hf hleft
  simpa using erased_step hopens hleads hcloses hcs front h hf hleft

theorem eraseFirst_script {g : Script} (hg : Sealed (plain g)) :
    ∃ g', p.eraseFirst (text g) = text g' ∧ Erased g g' :=
  eraseFirst_keeps (P := fun s => ∃ g', s = text g' ∧ Erased g g')
    (erased_step hopens hleads hcloses hcs) ⟨g, rfl, .refl g, hg, id⟩

end Erase

/-! ## Captured parts -/

/-- A captured part is a script of its own, between two characters of the match. -/
theorem frames_script {p : Pattern} {label : String} (hp : p.Frames label) {h : Hit}
    (hf : p.Found h) {g : Script} (hg : text g = h.matched) :
    ∃ gu c ga d gv, g = gu ++ .char c :: (ga ++ .char d :: gv) ∧ text ga = h.get label ∧
      c ≠ '\n' := by
  obtain ⟨u, c, d, v, hmatched, hc, hd⟩ := hp.found hf
  have hopen : ∀ c ∈ ['{', '}', ']'], ¬ TokenChar c ∧ c ≠ '\n' := by simp [TokenChar]
  have hclose : ∀ c ∈ ['}', '\\'], ¬ TokenChar c := by simp [TokenChar]
  obtain ⟨hcToken, hcLine⟩ := hopen c hc
  have hdToken := hclose d hd
  have htext : text g = u ++ c :: (h.get label ++ d :: v) := by simp [hg, hmatched]
  obtain ⟨gu, g', rfl, -, hg'⟩ := split_at hcToken htext
  obtain ⟨ga, gv, rfl, hga, -⟩ := split_at hdToken hg'
  exact ⟨gu, c, ga, d, gv, rfl, hga, hcLine⟩

/-- A part in braces of a script. -/
theorem braced_script {g : Script} {front w rest : Text}
    (h : text g = front ++ '{' :: (w ++ '}' :: rest)) :
    ∃ gu ga gr, g = gu ++ .char '{' :: (ga ++ .char '}' :: gr) ∧ text gu = front ∧ text ga = w ∧
      text gr = rest := by
  obtain ⟨gu, g', rfl, hgu, hg'⟩ := split_at (by decide) h
  obtain ⟨ga, gr, rfl, hga, hgr⟩ := split_at (by decide) hg'
  exact ⟨gu, ga, gr, rfl, hgu, hga, hgr⟩

/-- The argument of a command is a script that has tokens for math only. -/
theorem argument_script {name label : String} {h : Hit}
    (hf : (command name ++ argument label).Found h) {g : Script} (hg : text g = h.matched)
    (hsealed : Sealed (plain g)) (hpadded : Padded g) :
    ∃ ga, text ga = h.get label ∧ Sealed (plain ga) ∧ (∀ t ∈ tokens ga, t.kind = .math) ∧
      (tokens ga).Sublist (tokens g) := by
  obtain ⟨b, m, hm, ht⟩ := hf
  obtain ⟨u, hu⟩ := hm.exists_append
  obtain ⟨w, hw, hslots, hline⟩ := matches_argument ht
  have hget : h.get label = w := by rw [Hit.get, get?_of_slots hslots]; rfl
  have hmatched : text g = u ++ '{' :: (w ++ '}' :: []) := by
    refine hg.trans ((List.append_left_inj h.stop.rest).1 ?_)
    rw [show h.matched ++ h.stop.rest = u ++ m.rest from hu, hw]
    simp
  obtain ⟨gu, ga, gr, rfl, -, rfl, -⟩ := braced_script hmatched
  have hpart : ga <:+: gu ++ .char '{' :: (ga ++ .char '}' :: gr) :=
    ⟨gu ++ [.char '{'], .char '}' :: gr, by simp⟩
  exact ⟨ga, hget.symm, hsealed.mono (plain_isInfix hpart),
    ((hpadded.right (by decide)).left).kind_eq_math hline, tokens_sublist hpart.sublist⟩

end LatexPreview
