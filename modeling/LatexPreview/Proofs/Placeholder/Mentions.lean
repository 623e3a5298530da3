import Mathlib
import LatexPreview.Proofs.Placeholder.Resolve
import LatexPreview.Proofs.Text.Passage

/-!
# Tokens in passages

The text of a table of any name, as a passage whose marks are the numbers of the tokens.
Unlike in the texts of a conversion, nothing but the name of the table makes a token here:
a passage is free if no row of characters in it reads like the front of a token.  As a token
starts with two low lines and its name holds none, what looks like a token then is one, as long
as it is the first one from the left.

* `Passage.text` reads a passage with the tokens of a name
* `Passage.Free`: the passages in which only tokens read like tokens
* `prefix_of_looks_like`: nothing that looks like a token starts before the first token
* `cut_mentionCut`: a search finds the tokens of a passage
* `mentions_of_text_eq`: free passages with equal texts mention the same tokens
-/

namespace LatexPreview

/-- What every token of a name starts with. -/
def tokenFront (name : Text) : Text := '_' :: '_' :: (name ++ ['_'])

namespace Passage

variable {name : Text} {g : Passage Nat}

/-- The text of a passage in which the tokens have a name. -/
def text (name : Text) (g : Passage Nat) : Text := fill (placeholder name) g

/-- No row of characters in the passage reads like the front of a token. -/
def Free (name : Text) (g : Passage Nat) : Prop := ¬ ofText (tokenFront name) <:+: g

@[simp] theorem text_append (name : Text) (g h : Passage Nat) :
    text name (g ++ h) = text name g ++ text name h := fill_append _ _ _

@[simp] theorem text_ofText (name s : Text) : text name (ofText s) = s := fill_ofText _ s

@[simp] theorem text_mention (name : Text) (n : Nat) (g : Passage Nat) :
    text name (.mention n :: g) = placeholder name n ++ text name g := rfl

theorem Free.mono {h : Passage Nat} (hg : Free name g) (hh : h <:+: g) : Free name h :=
  fun hi => hg (hi.trans hh)

theorem Free.not_infix {a : Text} (hg : Free name g) (ha : ofText a <:+: g) :
    ¬ tokenFront name <:+: a :=
  fun hi => hg ((hi.map Piece.char).trans ha)

/-- Rows of characters are still there when texts are put in place of the tokens. -/
theorem free_of_fill {content : Nat → Text} (h : ¬ tokenFront name <:+: fill content g) :
    Free name g := by
  rintro ⟨a, b, rfl⟩
  exact h ⟨fill content a, fill content b, by simp⟩

end Passage

/-! ## Names -/

/-- A name that is not empty and has no low line, such as a word of letters. -/
structure TokenName (name : Text) : Prop where
  nonempty : name ≠ []
  low : '_' ∉ name

instance (name : Text) : Decidable (TokenName name) :=
  decidable_of_iff (name ≠ [] ∧ '_' ∉ name) ⟨fun h => ⟨h.1, h.2⟩, fun h => ⟨h.1, h.2⟩⟩

theorem placeholder_eq_front (name : Text) (n : Nat) :
    placeholder name n = tokenFront name ++ (Text.ofNat n ++ "__".toList) := by
  simp [placeholder, tokenFront]

/-- The front of a token has no two low lines but the first ones. -/
theorem TokenName.two_low {name : Text} (hname : TokenName name) {a b : Text}
    (h : tokenFront name = a ++ '_' :: '_' :: b) : a = [] := by
  obtain ⟨c, m, rfl⟩ := List.exists_cons_of_ne_nil hname.nonempty
  match a with
  | [] => rfl
  | [_] =>
    have hc : c = '_' := (List.cons.inj (List.cons.inj (List.cons.inj h).2).2).1
    exact absurd (by simp [hc]) hname.low
  | _ :: _ :: a =>
    have hlater : c :: m ++ ['_'] = a ++ '_' :: '_' :: b := (List.cons.inj (List.cons.inj h).2).2
    have hcount := congrArg (List.count '_') hlater
    rw [List.count_append, List.count_eq_zero.2 hname.low] at hcount
    simp at hcount
    omega

/-- Nothing that looks like a token starts before the first token. -/
theorem prefix_of_looks_like {name : Text} (hname : TokenName name) {a front ds y rest : Text}
    (hfree : ¬ tokenFront name <:+: a) {n : Nat} (hne : ds ≠ []) (hds : '_' ∉ ds)
    (h : a ++ (placeholder name n ++ y) = front ++ (tokenFront name ++ (ds ++ rest))) :
    a <+: front := by
  rcases List.append_eq_append_iff.1 h with ⟨z, rfl, -⟩ | ⟨c, rfl, hc⟩
  · exact ⟨z, rfl⟩
  rcases List.append_eq_append_iff.1 hc with ⟨z, rfl, -⟩ | ⟨r, hr, hlater⟩
  · exact absurd ⟨front, z, by simp⟩ hfree
  -- The front of the one ends with the first `r` of the token: that is nothing, a low line or more.
  rw [placeholder_eq_front, tokenFront] at hlater
  match r with
  | [] =>
    rw [List.append_nil] at hr
    exact absurd ⟨front, [], by simp [hr]⟩ hfree
  | [x] =>
    obtain ⟨d, ds, rfl⟩ := List.exists_cons_of_ne_nil hne
    have hd : '_' = d := (List.cons.inj (List.cons.inj hlater).2).1
    exact absurd (hd ▸ List.mem_cons_self) hds
  | x :: z :: r =>
    obtain ⟨hx, hlater⟩ := List.cons.inj hlater
    obtain ⟨hz, -⟩ := List.cons.inj hlater
    rw [← hx, ← hz] at hr
    obtain rfl := hname.two_low hr
    exact ⟨[], by simp⟩

/-! ## Searching passages -/

open Passage

/-- The hits of a search are the tokens of a passage. -/
inductive MentionCut (name : Text) : Passage Nat → List Hit → Text → Prop
  | tail {g : Passage Nat} (none : mentions g = []) : MentionCut name g [] (text name g)
  | hit {ga gb : Passage Nat} {n : Nat} {h : Hit} {hits : List Hit} {tail : Text}
      (none : mentions ga = []) (gap : h.gap = text name ga)
      (matched : h.matched = placeholder name n) (later : MentionCut name gb hits tail) :
      MentionCut name (ga ++ .mention n :: gb) (h :: hits) tail

namespace Pattern

variable {name : Text} {g : Passage Nat}

/-- The first match is the first token. -/
theorem first?_passage (hname : TokenName name) {a : Text} {n : Nat} {gb : Passage Nat}
    (hg : Free name (ofText a ++ .mention n :: gb)) {b : Option Char} {h : Hit}
    (hf : (placeholderPattern name).first? b (a ++ (placeholder name n ++ text name gb)) = some h) :
    h.gap = a ∧ h.matched = placeholder name n ∧ h.stop.rest = text name gb := by
  obtain ⟨htext, hat, hleft⟩ := first?_eq_some hf
  obtain ⟨ds, hne, hds, hmatched⟩ := found_placeholder ⟨_, matches_of_at? hat⟩
  have hlooks : a ++ (placeholder name n ++ text name gb) =
      h.gap ++ (tokenFront name ++ (ds ++ ("__".toList ++ h.stop.rest))) := by
    rw [htext, hmatched]
    simp [tokenFront]
  have hfree : ¬ tokenFront name <:+: a := hg.not_infix ⟨[], .mention n :: gb, rfl⟩
  obtain ⟨z, hz⟩ := prefix_of_looks_like hname hfree hne hds hlooks
  have hgap : h.gap = a := by
    cases z with
    | nil => simpa using hz.symm
    | cons c z =>
      have hnone := hleft a _ rfl (by simp [← hz])
      exact absurd (hnone ▸ at?_placeholder name n _ (text name gb)) (by simp)
  rw [hgap, placeholder_eq_front] at hlooks
  have hnumber : Text.ofNat n ++ '_' :: ('_' :: text name gb) =
      ds ++ '_' :: ('_' :: h.stop.rest) := by
    simpa using hlooks
  obtain ⟨rfl, hrest⟩ := eq_of_append_cons_eq (not_mem_ofNat n) hds hnumber
  exact ⟨hgap, hmatched, (List.cons.inj hrest).2.symm⟩

/-- There is no match in a row of characters, and one where there is a token. -/
theorem first?_isSome_passage (hg : Free name g) (b : Option Char) :
    ((placeholderPattern name).first? b (text name g)).isSome ↔ mentions g ≠ [] := by
  rcases eq_ofText_or g with ⟨a, rfl⟩ | ⟨a, n, gb, rfl⟩
  · simp only [mentions_ofText, ne_eq, not_true_eq_false, iff_false]
    intro hsome
    obtain ⟨h, hf⟩ := Option.isSome_iff_exists.1 hsome
    obtain ⟨htext, hat, -⟩ := first?_eq_some hf
    obtain ⟨ds, -, -, hmatched⟩ := found_placeholder ⟨_, matches_of_at? hat⟩
    rw [text_ofText, hmatched] at htext
    refine hg.not_infix List.infix_rfl ⟨h.gap, ds ++ "__".toList ++ h.stop.rest, ?_⟩
    rw [htext]
    simp [tokenFront]
  · refine iff_of_true ?_ (by simp)
    by_contra hnone
    have hat := first?_eq_none (Option.not_isSome_iff_eq_none.1 hnone) (text_append name _ _)
    exact absurd (hat ▸ at?_placeholder name n _ (text name gb)) (by simp)

theorem cutAtMost_mentionCut (hname : TokenName name) (hg : Free name g) {n : Nat}
    (hn : (text name g).length ≤ n) (b : Option Char) :
    MentionCut name g ((placeholderPattern name).cutAtMost n b (text name g)).hits
      ((placeholderPattern name).cutAtMost n b (text name g)).tail := by
  induction n generalizing g b with
  | zero =>
    refine .tail ?_
    rcases eq_ofText_or g with ⟨a, rfl⟩ | ⟨a, n, gb, rfl⟩
    · simp
    · simp [placeholder] at hn
  | succ n ih =>
    have hsome := first?_isSome_passage hg b
    rw [cutAtMost]
    split
    · rename_i hnone
      exact .tail (by simpa [hnone] using hsome)
    · rename_i h hf
      rcases eq_ofText_or g with ⟨a, rfl⟩ | ⟨a, m, gb, rfl⟩
      · exact absurd (hsome.1 (by rw [hf]; rfl)) (by simp)
      · rw [text_append, text_ofText, text_mention] at hf
        obtain ⟨hgap, hmatched, hrest⟩ := first?_passage hname hg hf
        have hlater : Free name gb := hg.mono ⟨ofText a ++ [.mention m], [], by simp⟩
        have hlength : (text name gb).length ≤ n := by
          simp [placeholder] at hn
          omega
        rw [hrest]
        exact .hit (by simp) (by simpa using hgap) hmatched (ih hlater hlength _)

theorem cut_mentionCut (hname : TokenName name) (hg : Free name g) :
    MentionCut name g ((placeholderPattern name).cut (text name g)).hits
      ((placeholderPattern name).cut (text name g)).tail :=
  cutAtMost_mentionCut hname hg le_rfl none

end Pattern

theorem MentionCut.map_matched {name : Text} {g : Passage Nat} {hits : List Hit} {tail : Text}
    (h : MentionCut name g hits tail) :
    hits.map (·.matched) = (mentions g).map (placeholder name) := by
  induction h with
  | tail hnone => simp [hnone]
  | hit hnone _ hmatched _ ih => simp [hnone, hmatched, ih]

/-- Free passages with equal texts mention the same tokens. -/
theorem mentions_of_text_eq {name : Text} (hname : TokenName name) {g h : Passage Nat}
    (hg : Free name g) (hh : Free name h) (heq : text name g = text name h) :
    mentions g = mentions h := by
  refine List.map_injective_iff.2 (placeholder_injective name) ?_
  rw [← (Pattern.cut_mentionCut hname hg).map_matched,
    ← (Pattern.cut_mentionCut hname hh).map_matched, heq]

end LatexPreview
