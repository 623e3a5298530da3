import Mathlib
import LatexPreview.Proofs.Pattern.Scan
import LatexPreview.Text.Blank

/-!
# Words in texts

A word occurs in a text where it does not reach over anything that has none of its characters.

* `avoids_congr`: where a word starts does not depend on what stands behind a character that is
  not in it
* `exists_first`: the first occurrence of a word
* `infix_around`, `infix_blanks`: a word in a text with something in it, or blanks around it
* `infix_of_infix_replaceChar`: a word in a text in which a character is replaced
-/

namespace LatexPreview

namespace Text

variable {w x y s : Text}

/-- A word without a character does not reach over it. -/
theorem prefix_of_not_mem {w x s : Text} {c : Char} (hc : c ∉ w) (h : w <+: x ++ c :: s) :
    w <+: x := by
  rcases List.prefix_or_prefix_of_prefix h (List.prefix_append x (c :: s)) with hw | ⟨v, rfl⟩
  · exact hw
  · obtain ⟨r, hr⟩ := h
    cases v with
    | nil => simp
    | cons d v =>
      have hd : d = c := by
        have hrest : d :: (v ++ r) = c :: s := by simpa using hr
        exact (List.cons.inj hrest).1
      exact absurd (by simp [hd]) hc

/-- Where a word starts in a text does not depend on what stands behind a character that is not in
the word, but perhaps at its front. -/
theorem avoids_congr {c e : Char} {w : Text} (hc : c ∉ w) {x s s' : Text}
    (h : Avoids (e :: w) x (c :: s)) : Avoids (e :: w) x (c :: s') := by
  induction x with
  | nil => trivial
  | cons d x ih =>
    refine ⟨fun hp => h.1 ?_, ih h.2⟩
    obtain ⟨rfl, hw⟩ := List.cons_prefix_cons.1 hp
    exact List.cons_prefix_cons.2 ⟨rfl, (prefix_of_not_mem hc hw).trans (List.prefix_append x _)⟩

/-- A word that is not empty stands in a text if an occurrence of it starts there. -/
theorem avoids_nil_iff {w x : Text} (hw : w ≠ []) : Avoids w x [] ↔ ¬ w <:+: x := by
  induction x with
  | nil => exact iff_of_true trivial fun h => hw (List.infix_nil.1 h)
  | cons c x ih => simp [Avoids, ih, List.infix_cons_iff, not_or]

/-- A word that stands in a text stands behind a part of the text in which it does not start. -/
theorem exists_first {w s : Text} (h : w <:+: s) :
    ∃ x y, s = x ++ (w ++ y) ∧ Avoids w x (w ++ y) := by
  induction s with
  | nil => exact ⟨[], [], by simp [List.infix_nil.1 h], trivial⟩
  | cons c s ih =>
    by_cases hfront : w <+: c :: s
    · obtain ⟨y, hy⟩ := hfront
      exact ⟨[], y, hy.symm, trivial⟩
    · obtain ⟨x, y, rfl, hx⟩ := ih ((List.infix_cons_iff.1 h).resolve_left hfront)
      exact ⟨c :: x, y, rfl, hfront, hx⟩

/-- Whether a word starts in a text has nothing to do with what follows, if this starts with a
character that is not in the word, but perhaps at its front. -/
theorem avoids_append_iff {c e : Char} (hc : c ∉ w) :
    Avoids (e :: w) x (c :: s) ↔ Avoids (e :: w) x [] := by
  induction x with
  | nil => exact Iff.rfl
  | cons d x ih =>
    refine and_congr (not_congr ?_) ih
    rw [List.append_nil, List.cons_prefix_cons, List.cons_prefix_cons]
    exact and_congr_right fun _ =>
      ⟨fun h => prefix_of_not_mem hc h, fun h => h.trans (List.prefix_append _ _)⟩

/-- A word does not reach into a part that has none of its characters. -/
theorem infix_around {z : Text} (hw : w ≠ []) (hy : y ≠ []) (hdisjoint : ∀ c ∈ w, c ∉ y) :
    w <:+: x ++ (y ++ z) ↔ w <:+: x ∨ w <:+: z := by
  obtain ⟨e, y, rfl⟩ := List.exists_cons_of_ne_nil hy
  obtain ⟨c, w, rfl⟩ := List.exists_cons_of_ne_nil hw
  have he : e ∉ w := fun hmem => hdisjoint e (by simp [hmem]) (by simp)
  have hwithin : ∀ s, Avoids (c :: w) (e :: y) s := fun s =>
    avoids_of_not_mem (hdisjoint c (by simp))
  rw [← not_iff_not, not_or, ← avoids_nil_iff hw, ← avoids_nil_iff hw, ← avoids_nil_iff hw,
    avoids_append, avoids_append, List.append_nil, List.cons_append, avoids_append_iff he]
  exact ⟨fun h => ⟨h.1, h.2.2⟩, fun h => ⟨h.1, hwithin _, h.2⟩⟩

/-- A word does not reach over a character that it does not have. -/
theorem infix_append_cons {z : Text} {c : Char} (hw : w ≠ []) (hc : c ∉ w) :
    w <:+: x ++ c :: z ↔ w <:+: x ∨ w <:+: z := by
  have haround := infix_around (x := x) (y := [c]) (z := z) hw (by simp) fun d hd hmem =>
    hc (List.mem_singleton.1 hmem ▸ hd)
  rwa [List.singleton_append] at haround

/-- Blanks around a text do not matter to a word without blanks. -/
theorem infix_blanks {l t : Text} (hw : w ≠ []) (hblank : ∀ c ∈ w, isBlank c = false)
    (hl : ∀ c ∈ l, isBlank c = true) (ht : ∀ c ∈ t, isBlank c = true) :
    w <:+: l ++ (s ++ t) ↔ w <:+: s := by
  have hnil : ¬ w <:+: [] := fun h => hw (List.infix_nil.1 h)
  have hfront : ∀ s, w <:+: l ++ s ↔ w <:+: s := by
    intro s
    by_cases hne : l = []
    · rw [hne, List.nil_append]
    · have haround := infix_around (x := []) (z := s) hw hne fun c hc hmem =>
        absurd (hl c hmem) (by simp [hblank c hc])
      rw [List.nil_append] at haround
      rw [haround, or_iff_right hnil]
  by_cases hne : t = []
  · rw [hne, List.append_nil, hfront]
  · have haround := infix_around (x := s) (z := []) hw hne fun c hc hmem =>
      absurd (ht c hmem) (by simp [hblank c hc])
    rw [List.append_nil] at haround
    rw [hfront, haround, or_iff_left hnil]

/-- Each of several texts stands in what they make together. -/
theorem infix_join (sep : Text) {l : Text} {lines : List Text} (h : l ∈ lines) :
    l <:+: join sep lines := by
  induction lines with
  | nil => exact absurd h (by simp)
  | cons k lines ih =>
    cases lines with
    | nil =>
      obtain rfl := List.mem_singleton.1 h
      exact List.infix_rfl
    | cons j lines =>
      rcases List.mem_cons.1 h with rfl | h
      · exact ⟨[], sep ++ join sep (j :: lines), by simp [join]⟩
      · exact (ih h).trans ⟨k ++ sep, [], by simp [join]⟩

/-! ## Characters replaced -/

section Replace

variable {old a b : Char} {new : Text}

theorem replaceChar_append (s t : Text) : replaceChar (s ++ t) old new =
    replaceChar s old new ++ replaceChar t old new := List.flatMap_append

theorem replaceChar_eq_self (h : old ∉ s) : replaceChar s old new = s := by
  induction s with
  | nil => rfl
  | cons c s ih =>
    have hc : c ≠ old := fun hc => h (by simp [hc])
    rw [replaceChar, List.flatMap_cons, if_neg hc, ← replaceChar, ih fun hmem => h (by simp [hmem])]
    rfl

theorem mem_replaceChar {c : Char} :
    c ∈ replaceChar s old new ↔ c ∈ s ∧ c ≠ old ∨ old ∈ s ∧ c ∈ new := by
  simp only [replaceChar, List.mem_flatMap]
  constructor
  · rintro ⟨d, hd, hc⟩
    split at hc
    · rename_i heq
      exact .inr ⟨heq ▸ hd, hc⟩
    · rename_i hne
      exact .inl (List.mem_singleton.1 hc ▸ ⟨hd, hne⟩)
  · rintro (⟨hc, hne⟩ | ⟨hold, hc⟩)
    · exact ⟨c, hc, by simp [hne]⟩
    · exact ⟨old, hold, by simpa using hc⟩

/-- What a text has of some characters when another text has been put in place of one. -/
theorem countP_replaceChar (q : Char → Bool) (s : Text) (old : Char) (new : Text) :
    (replaceChar s old new).countP q + s.count old * [old].countP q =
      s.countP q + s.count old * new.countP q := by
  induction s with
  | nil => simp [replaceChar]
  | cons c s ih =>
    have hsplit : (replaceChar (c :: s) old new).countP q =
        (if c = old then new else [c]).countP q + (replaceChar s old new).countP q :=
      List.countP_append
    have hrest : (c :: s).countP q = [c].countP q + s.countP q := by
      rw [← List.countP_append, List.singleton_append]
    rw [hsplit, hrest]
    by_cases hc : c = old
    · rw [if_pos hc, hc, List.count_cons_self, Nat.add_mul, Nat.add_mul]
      omega
    · rw [if_neg hc, List.count_cons_of_ne hc]
      omega

theorem countP_replaceChar_eq {q : Char → Bool} (h : new.countP q = [old].countP q) :
    (replaceChar s old new).countP q = s.countP q := by
  have hall := countP_replaceChar q s old new
  rwa [h, Nat.add_right_cancel_iff] at hall

theorem countP_le_replaceChar {q : Char → Bool} (h : [old].countP q ≤ new.countP q) :
    s.countP q ≤ (replaceChar s old new).countP q := by
  have hall := countP_replaceChar q s old new
  have hless := Nat.mul_le_mul_left (s.count old) h
  omega

/-- A word that starts in front of what is put in place of a character ends there, too. -/
theorem prefix_of_prefix_replaceChar (ha : a ∉ w) (h : w <+: s.replaceChar old (a :: new)) :
    w <+: s := by
  induction s generalizing w with
  | nil => exact h
  | cons c s ih =>
    cases w with
    | nil => exact List.nil_prefix
    | cons d w =>
      by_cases hc : c = old
      · simp only [replaceChar, List.flatMap_cons, hc, if_true, List.cons_append] at h
        exact absurd (by simp [(List.cons_prefix_cons.1 h).1]) ha
      · simp only [replaceChar, List.flatMap_cons, hc, if_false, List.singleton_append] at h
        obtain ⟨rfl, hlater⟩ := List.cons_prefix_cons.1 h
        exact List.cons_prefix_cons.2 ⟨rfl, ih (fun hmem => ha (by simp [hmem])) hlater⟩

/-- No word arises where a character is replaced by a text in which the word does not stand and
whose ends are not in it. -/
theorem infix_of_infix_replaceChar (hw : w ≠ []) (ha : a ∉ w) (hb : b ∉ w) (hnew : ¬ w <:+: new)
    (h : w <:+: s.replaceChar old (a :: (new ++ [b]))) : w <:+: s := by
  induction s with
  | nil => exact h
  | cons c s ih =>
    by_cases hc : c = old
    · have hsplit : replaceChar (c :: s) old (a :: (new ++ [b])) =
          [] ++ a :: (new ++ b :: replaceChar s old (a :: (new ++ [b]))) := by
        simp [replaceChar, hc]
      rw [hsplit, infix_append_cons hw ha, infix_append_cons hw hb] at h
      rcases h with hi | hi | hi
      · exact absurd (List.infix_nil.1 hi) hw
      · exact absurd hi hnew
      · exact (ih hi).trans (List.suffix_cons c s).isInfix
    · have hsplit : replaceChar (c :: s) old (a :: (new ++ [b])) =
          c :: replaceChar s old (a :: (new ++ [b])) := by
        simp [replaceChar, hc]
      rw [hsplit, List.infix_cons_iff, ← hsplit] at h
      rcases h with hfront | hi
      · exact (prefix_of_prefix_replaceChar ha hfront).isInfix
      · exact (ih hi).trans (List.suffix_cons c s).isInfix

end Replace

end Text

end LatexPreview
