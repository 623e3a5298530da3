import Mathlib
import LatexPreview.Html.Element
import LatexPreview.Html.Style
import LatexPreview.Proofs.Text.Words

/-!
# Texts in which no token can arise

A text that looks nowhere like the name in a token may still look so when a part of it is
taken out: what stood on both sides of the part comes together.  The stages take out some
commands only, so it is enough that no beginning of a name stands in front of one of these.
To be sure also where several commands are taken out, backslashes and small letters between
the beginning and the command do not count.

* `Seal` are the names of tokens and their beginnings in front of a command that is taken out
* `Sealed` is a text without any of these
* `Neutral` characters stand in none of them, so that a text may be divided there
* `sealed_append_of_deleted`: a sealed text stays sealed when a command is taken out
* `Capped` is a text that may be put anywhere into a sealed one
-/

namespace LatexPreview

/-! ## Seals -/

/-- The commands that are taken out with nothing in their place. -/
def takenOut : List Text :=
  ["\\title", "\\author", "\\date", "\\maketitle", "\\caption", "\\begin", "\\hline", "\\cline",
    "\\toprule", "\\midrule", "\\bottomrule"].map (·.toList)

/-- The beginnings of names in tokens. -/
def beginnings : List Text := [['M'], ['M', 'T'], ['B'], ['B', 'L']]

/-- The characters of commands. -/
def CommandChar (c : Char) : Prop := c = '\\' ∨ c.isLower = true

instance (c : Char) : Decidable (CommandChar c) := inferInstanceAs (Decidable (_ ∨ _))

/-- A beginning of a name in front of a command that is taken out. -/
def Fuse (w : Text) : Prop :=
  ∃ x ∈ beginnings, ∃ r, w = x ++ r ∧ (∀ c ∈ r, CommandChar c) ∧ ∃ name ∈ takenOut, name <:+ r

instance (w : Text) : Decidable (Fuse w) :=
  decidable_of_iff
    (∃ x ∈ beginnings, x <+: w ∧ ((w.drop x.length).all fun c => decide (CommandChar c)) = true ∧
      ∃ name ∈ takenOut, name <:+ w.drop x.length) <| by
    refine exists_congr fun x => and_congr_right fun _ => ?_
    constructor
    · rintro ⟨⟨r, rfl⟩, hr, hname⟩
      exact ⟨r, rfl, by simpa using hr, by simpa using hname⟩
    · rintro ⟨r, rfl, hr, hname⟩
      exact ⟨List.prefix_append x r, by simpa using hr, by simpa using hname⟩

/-- The names in tokens, and their beginnings in front of a command that is taken out. -/
def Seal (w : Text) : Prop := w = ['M', 'T', 'H'] ∨ w = ['B', 'L', 'K'] ∨ Fuse w

instance (w : Text) : Decidable (Seal w) := inferInstanceAs (Decidable (_ ∨ _ ∨ _))

/-- A character that stands in no seal. -/
def Neutral (c : Char) : Prop := c ∉ ['M', 'T', 'H', 'B', 'L', 'K'] ∧ ¬ CommandChar c

instance (c : Char) : Decidable (Neutral c) := inferInstanceAs (Decidable (_ ∧ _))

theorem commandChar_of_mem_takenOut {name : Text} (hname : name ∈ takenOut) {c : Char}
    (hc : c ∈ name) : CommandChar c := by
  have hall : takenOut.all (fun name => name.all fun c => decide (CommandChar c)) = true := by
    decide
  simpa using List.all_eq_true.1 (List.all_eq_true.1 hall name hname) c hc

theorem Seal.not_neutral {w : Text} (hw : Seal w) {c : Char} (hc : c ∈ w) : ¬ Neutral c := by
  rintro ⟨hletter, hcommand⟩
  rcases hw with rfl | rfl | ⟨x, hx, r, rfl, hr, -⟩
  · simp at hc hletter
    tauto
  · simp at hc hletter
    tauto
  · rcases List.mem_append.1 hc with hc | hc
    · have hall : ∀ x ∈ beginnings, ∀ c ∈ x, c ∈ ['M', 'T', 'H', 'B', 'L', 'K'] := by
        simp [beginnings]
      exact hletter (hall x hx c hc)
    · exact hcommand (hr c hc)

/-- Every seal starts with the initial of a name. -/
theorem Seal.eq_cons {w : Text} (hw : Seal w) : ∃ c m, w = c :: m ∧ c ∈ ['M', 'B'] := by
  rcases hw with rfl | rfl | ⟨x, hx, r, rfl, -⟩
  · exact ⟨'M', _, rfl, by simp⟩
  · exact ⟨'B', _, rfl, by simp⟩
  · have hall : ∀ x ∈ beginnings, ∃ c m, x = c :: m ∧ c ∈ ['M', 'B'] := by simp [beginnings]
    obtain ⟨c, m, rfl, hc⟩ := hall x hx
    exact ⟨c, m ++ r, rfl, hc⟩

theorem mem_beginnings_of_append {x y z : Text}
    (hz : z ∈ [['M', 'T', 'H'], ['B', 'L', 'K']] ++ beginnings) (h : z = x ++ y) (hx : x ≠ [])
    (hy : y ≠ []) : x ∈ beginnings := by
  have hall : ([['M', 'T', 'H'], ['B', 'L', 'K']] ++ beginnings).all (fun z =>
      z.inits.all fun x => decide (x = [] ∨ x = z ∨ x ∈ beginnings)) = true := by decide
  have hprefix : x ∈ z.inits := (List.mem_inits _ _).2 ⟨y, h.symm⟩
  have hcases := List.all_eq_true.1 (List.all_eq_true.1 hall z hz) x hprefix
  rcases of_decide_eq_true hcases with rfl | rfl | hmem
  · exact absurd rfl hx
  · exact absurd (by simpa using h) hy
  · exact hmem

/-- The front part of a seal makes a seal with every command that is taken out. -/
theorem Seal.append_command {x y name : Text} (hw : Seal (x ++ y)) (hx : x ≠ []) (hy : y ≠ [])
    (hname : name ∈ takenOut) : Seal (x ++ name) := by
  have hcommand : ∀ c ∈ name, CommandChar c := fun c => commandChar_of_mem_takenOut hname
  have hfuse : x ∈ beginnings → Seal (x ++ name) := fun hmem =>
    .inr (.inr ⟨x, hmem, name, rfl, hcommand, name, hname, List.suffix_refl _⟩)
  rcases hw with h | h | ⟨z, hz, r, h, hr, -⟩
  · exact hfuse (mem_beginnings_of_append (by simp) h.symm hx hy)
  · exact hfuse (mem_beginnings_of_append (by simp) h.symm hx hy)
  · rcases List.append_eq_append_iff.1 h with ⟨z', rfl, -⟩ | ⟨r', rfl, rfl⟩
    · cases z' with
      | nil => exact hfuse (by simpa using hz)
      | cons c z' => exact hfuse (mem_beginnings_of_append (List.mem_append_right _ hz) rfl hx
        (List.cons_ne_nil c z'))
    · refine .inr (.inr ⟨z, hz, r' ++ name, by simp, fun c hc => ?_, name, hname,
        List.suffix_append _ _⟩)
      rcases List.mem_append.1 hc with hc | hc
      · exact hr c (by simp [hc])
      · exact hcommand c hc

/-! ## Sealed texts -/

/-- No token arises in the text, also not when commands are taken out of it. -/
def Sealed (s : Text) : Prop := ∀ w, Seal w → ¬ w <:+: s

instance (s : Text) : Decidable (Sealed s) :=
  decidable_of_iff (∀ w ∈ s.tails.flatMap List.inits, ¬ Seal w) <| by
    constructor
    · rintro h w hw ⟨u, v, rfl⟩
      refine h w (List.mem_flatMap.2 ⟨w ++ v, (List.mem_tails _ _).2 ⟨u, by simp⟩, ?_⟩) hw
      exact (List.mem_inits _ _).2 (List.prefix_append w v)
    · intro h w hmem hw
      obtain ⟨t, ht, hwt⟩ := List.mem_flatMap.1 hmem
      exact h w hw (((List.mem_inits _ _).1 hwt).isInfix.trans ((List.mem_tails _ _).1 ht).isInfix)

theorem Sealed.mono {s t : Text} (h : Sealed t) (hst : s <:+: t) : Sealed s :=
  fun w hw hws => h w hw (hws.trans hst)

theorem sealed_nil : Sealed [] := by
  intro w hw hi
  obtain ⟨c, m, rfl, -⟩ := hw.eq_cons
  exact absurd (List.infix_nil.1 hi) (by simp)

/-- A text is divided at a neutral character. -/
theorem sealed_append_cons {a b : Text} {c : Char} (hc : Neutral c) :
    Sealed (a ++ c :: b) ↔ Sealed a ∧ Sealed b := by
  constructor
  · intro h
    exact ⟨h.mono (List.prefix_append a _).isInfix,
      h.mono ((List.suffix_cons c b).trans (List.suffix_append a _)).isInfix⟩
  · rintro ⟨ha, hb⟩ w hw hi
    rcases List.infix_append_iff_ne_nil.1 hi with hi | hi | ⟨x, y, -, hy, rfl, -, hpre⟩
    · exact ha w hw hi
    · rcases List.infix_cons_iff.1 hi with hpre | hi
      · obtain ⟨d, w, rfl, -⟩ := hw.eq_cons
        obtain ⟨rfl, -⟩ := List.cons_prefix_cons.1 hpre
        exact hw.not_neutral (by simp) hc
      · exact hb w hw hi
    · obtain ⟨d, y, rfl⟩ := List.exists_cons_of_ne_nil hy
      obtain ⟨rfl, -⟩ := List.cons_prefix_cons.1 hpre
      exact hw.not_neutral (by simp) hc

theorem sealed_cons {c : Char} {b : Text} (hc : Neutral c) : Sealed (c :: b) ↔ Sealed b := by
  simpa [sealed_nil] using sealed_append_cons (a := []) (b := b) hc

/-- What stood on both sides of a command makes no token when the command is taken out. -/
theorem sealed_append_of_deleted {a name m b : Text} (hname : name ∈ takenOut)
    (h : Sealed (a ++ (name ++ m) ++ b)) : Sealed (a ++ b) := by
  intro w hw hi
  rcases List.infix_append_iff_ne_nil.1 hi with hi | hi | ⟨x, y, hx, hy, rfl, ⟨u, rfl⟩, -⟩
  · exact h w hw (hi.trans ⟨[], name ++ m ++ b, by simp⟩)
  · exact h w hw (hi.trans ⟨a ++ (name ++ m), [], by simp⟩)
  · exact h _ (hw.append_command hx hy hname) ⟨u, m ++ b, by simp⟩

/-! ## Texts that may be put anywhere -/

/-- A text that starts and ends with a neutral character. -/
def Capped (s : Text) : Prop :=
  (∃ c m, s = c :: m ∧ Neutral c) ∧ ∃ m c, s = m ++ [c] ∧ Neutral c

theorem capped_singleton {c : Char} (hc : Neutral c) : Capped [c] := ⟨⟨c, [], rfl, hc⟩, [], c, rfl, hc⟩

theorem Capped.append {s t : Text} (hs : Capped s) (ht : Capped t) : Capped (s ++ t) := by
  obtain ⟨⟨c, m, rfl, hc⟩, -⟩ := hs
  obtain ⟨-, n, d, rfl, hd⟩ := ht
  exact ⟨⟨c, m ++ (n ++ [d]), rfl, hc⟩, c :: m ++ n, d, by simp, hd⟩

/-- A capped text divides what stands around it. -/
theorem sealed_append_capped {a s b : Text} (hs : Capped s) :
    Sealed (a ++ s ++ b) ↔ Sealed a ∧ Sealed s ∧ Sealed b := by
  obtain ⟨⟨c, m, hfirst, hc⟩, n, d, hlast, hd⟩ := hs
  have hleft : ∀ t, Sealed (a ++ s ++ t) ↔ Sealed a ∧ Sealed (s ++ t) := by
    intro t
    rw [hfirst, List.append_assoc, List.cons_append, sealed_append_cons hc, sealed_cons hc]
  have hright : Sealed (s ++ b) ↔ Sealed s ∧ Sealed b := by
    rw [hlast, List.append_assoc, List.singleton_append, sealed_append_cons hd,
      sealed_append_cons hd]
    simp [sealed_nil]
  rw [hleft, hright]

/-! ## Quiet texts -/

/-- A text without the characters at the ends of seals. -/
def Quiet (s : Text) : Prop := ∀ c ∈ s, c ∉ ['H', 'K', '\\']

instance (s : Text) : Decidable (Quiet s) :=
  List.decidableBAll (fun c => c ∉ ['H', 'K', '\\']) s

theorem Seal.exists_mem {w : Text} (hw : Seal w) : ∃ c ∈ w, c ∈ ['H', 'K', '\\'] := by
  rcases hw with rfl | rfl | ⟨x, -, r, rfl, -, name, hname, hr⟩
  · exact ⟨'H', by simp, by simp⟩
  · exact ⟨'K', by simp, by simp⟩
  · have hall : takenOut.all (fun name => decide ('\\' ∈ name)) = true := by decide
    have hslash : '\\' ∈ name := of_decide_eq_true (List.all_eq_true.1 hall name hname)
    exact ⟨'\\', List.mem_append_right _ (hr.subset hslash), by simp⟩

theorem Quiet.sealed {s : Text} (h : Quiet s) : Sealed s := by
  intro w hw hi
  obtain ⟨c, hc, hmem⟩ := hw.exists_mem
  exact h c (hi.subset hc) hmem

theorem quiet_append {s t : Text} : Quiet (s ++ t) ↔ Quiet s ∧ Quiet t := by
  simp only [Quiet, List.mem_append]
  exact ⟨fun h => ⟨fun c hc => h c (.inl hc), fun c hc => h c (.inr hc)⟩,
    fun h c hc => hc.elim (h.1 c) (h.2 c)⟩

theorem quiet_cons {c : Char} {s : Text} :
    Quiet (c :: s) ↔ c ∉ ['H', 'K', '\\'] ∧ Quiet s := by
  simp [Quiet]

/-! ## Escaped characters -/

/-- A text in place of a character keeps a text sealed, if no seal goes on in it or starts there. -/
theorem sealed_replaceChar {old : Char} {new : Text} (hfirst : ∃ n m, new = n :: m ∧ Neutral n)
    (hnew : ∀ c ∈ new, c ∉ ['M', 'B']) {s : Text} (hs : Sealed s) :
    Sealed (s.replaceChar old new) := by
  obtain ⟨n, m, rfl, hn⟩ := hfirst
  have hskip : ∀ {m t : Text}, (∀ c ∈ m, c ∉ ['M', 'B']) → Sealed t → Sealed (m ++ t) := by
    intro m t hm ht
    induction m with
    | nil => exact ht
    | cons c m ih =>
      intro w hw hi
      rcases List.infix_cons_iff.1 hi with hpre | hi
      · obtain ⟨d, w, rfl, hd⟩ := hw.eq_cons
        obtain ⟨rfl, -⟩ := List.cons_prefix_cons.1 hpre
        exact hm _ (by simp) hd
      · exact ih (fun d hd => hm d (by simp [hd])) w hw hi
  induction s with
  | nil => exact hs
  | cons c s ih =>
    have htail := ih (hs.mono (List.suffix_cons c s).isInfix)
    by_cases hc : c = old
    · simp only [Text.replaceChar, List.flatMap_cons, hc, if_true]
      exact hskip hnew htail
    · simp only [Text.replaceChar, List.flatMap_cons, hc, if_false, List.singleton_append]
      intro w hw hi
      rcases List.infix_cons_iff.1 hi with hpre | hi
      · have hpre' : w <+: Text.replaceChar (c :: s) old (n :: m) := by
          simpa [Text.replaceChar, hc] using hpre
        exact hs w hw
          (Text.prefix_of_prefix_replaceChar (fun hmem => hw.not_neutral hmem hn) hpre').isInfix
      · exact htail w hw hi

end LatexPreview
