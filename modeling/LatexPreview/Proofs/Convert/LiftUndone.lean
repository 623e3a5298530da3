import Mathlib
import LatexPreview.Proofs.Convert.LiftedMath
import LatexPreview.Proofs.Placeholder.Search
import LatexPreview.Proofs.Text.Words

/-!
# Lifting undone

Lifting math can be undone: what stands in a text for a span is found nowhere else in it, as long as
all that was lifted later has been put back.  A span may hold what stands for spans that were lifted
before it, so the last one has to be put back first.

* `Text.occurrences` are the places where a word stands in a text, `Text.replaceOnly?` replaces a
  word that stands at one place only
* `Draft.minted` is what stands in the text for the math, in the order in which it was stored, and
  `undo` puts sources back
* `Undone`: what each span that is lifted keeps
* `liftMath_undone`: the document is found again
-/

namespace LatexPreview

open Script Text

/-! ## The only occurrence of a word -/

namespace Text

/-- The word at the front of a text, with what stands in front of it and behind it. -/
def occurrenceAtFront (w s : Text) : List (Text × Text) :=
  ((dropFront? w s).map fun rest => ([], rest)).toList

/-- The places where a word stands in a text: what is in front of it and what is behind it. -/
def occurrences (w : Text) : Text → List (Text × Text)
  | [] => occurrenceAtFront w []
  | c :: s => occurrenceAtFront w (c :: s) ++
      (occurrences w s).map fun (front, rest) => (c :: front, rest)

/-- The text with the word replaced, if it stands at exactly one place. -/
def replaceOnly? (w new s : Text) : Option Text :=
  match occurrences w s with
  | [(front, rest)] => some (front ++ new ++ rest)
  | _ => none

variable {w s front rest : Text}

theorem mem_occurrenceAtFront :
    (front, rest) ∈ occurrenceAtFront w s ↔ front = [] ∧ s = w ++ rest := by
  simp only [occurrenceAtFront, Option.mem_toList, Option.map_eq_some_iff, dropFront?_eq_some_iff,
    Prod.mk.injEq]
  constructor
  · rintro ⟨r, hs, rfl, rfl⟩
    exact ⟨rfl, hs⟩
  · rintro ⟨rfl, hs⟩
    exact ⟨rest, hs, rfl, rfl⟩

theorem mem_occurrences : (front, rest) ∈ occurrences w s ↔ s = front ++ (w ++ rest) := by
  induction s generalizing front with
  | nil =>
    rw [occurrences, mem_occurrenceAtFront]
    simp [eq_comm]
  | cons c s ih =>
    rw [occurrences, List.mem_append, mem_occurrenceAtFront]
    cases front with
    | nil => simp
    | cons d front => simp [ih, and_comm, eq_comm]

theorem nodup_occurrences (w s : Text) : (occurrences w s).Nodup := by
  have hfront : ∀ s, (occurrenceAtFront w s).Nodup := by
    intro s
    unfold occurrenceAtFront
    cases dropFront? w s <;> simp
  induction s with
  | nil => exact hfront []
  | cons c s ih =>
    refine List.nodup_append.2 ⟨hfront _, ih.map ?_, ?_⟩
    · rintro ⟨u, v⟩ ⟨x, y⟩ h
      simpa using h
    · rintro ⟨u, v⟩ hu x hx rfl
      obtain ⟨rfl, -⟩ := mem_occurrenceAtFront.1 hu
      obtain ⟨⟨a, b⟩, -, hab⟩ := List.mem_map.1 hx
      simp at hab

/-- A word that stands nowhere else is replaced. -/
theorem replaceOnly?_eq_some (new : Text) (hs : s = front ++ (w ++ rest))
    (honly : ∀ u v, s = u ++ (w ++ v) → u = front) :
    replaceOnly? w new s = some (front ++ new ++ rest) := by
  have hall : ∀ x ∈ occurrences w s, x = (front, rest) := by
    rintro ⟨u, v⟩ hx
    have huv := mem_occurrences.1 hx
    obtain rfl := honly u v huv
    have hrest : v = rest := List.append_cancel_left (List.append_cancel_left (huv.symm.trans hs))
    rw [hrest]
  have hone : occurrences w s = [(front, rest)] := by
    have hmem : (front, rest) ∈ occurrences w s := mem_occurrences.2 hs
    have hnodup := nodup_occurrences w s
    generalize occurrences w s = l at hall hmem hnodup
    match l with
    | [] => exact absurd hmem List.not_mem_nil
    | [x] => rw [hall x (by simp)]
    | x :: y :: l =>
      have hsame : x = y := (hall x (by simp)).trans (hall y (by simp)).symm
      exact absurd hnodup (by simp [hsame])
  rw [replaceOnly?, hone]

end Text

/-! ## Putting sources back -/

/-- What stands in a text for stored math: its token or, if a block holds nothing but the token, the
token of the block between blank lines. -/
def Draft.standIn (d : Draft) (token : Text) : Text :=
  match d.blocks.entries.find? (·.2 == token) with
  | some (block, _) => "\n\n".toList ++ block ++ "\n\n".toList
  | none => token

/-- What stands in a text for the math, with the sources, in the order in which they were stored. -/
def Draft.minted (d : Draft) : List (Text × Text) :=
  d.math.entries.map fun entry => (d.standIn entry.1, entry.2)

/-- Puts sources back one after the other, each at the only place where what stands for it is. -/
def undo (minted : List (Text × Text)) (s : Text) : Option Text :=
  minted.foldlM (fun s entry => replaceOnly? entry.1 entry.2 s) s

theorem undo_cons (standIn source : Text) (minted : List (Text × Text)) (s : Text) :
    undo ((standIn, source) :: minted) s = (replaceOnly? standIn source s).bind (undo minted) := rfl

theorem PlaceholderTable.entries_append (name : Text) (contents : List Text) (new : Text) :
    PlaceholderTable.entries ⟨name, contents ++ [new]⟩ =
      PlaceholderTable.entries ⟨name, contents⟩ ++ [(placeholder name contents.length, new)] := by
  have htokens : PlaceholderTable.tokens ⟨name, contents ++ [new]⟩ =
      PlaceholderTable.tokens ⟨name, contents⟩ ++ [placeholder name contents.length] := by
    simp [PlaceholderTable.tokens, PlaceholderTable.size, List.range_succ]
  rw [PlaceholderTable.entries, htokens, PlaceholderTable.entries]
  exact List.zip_append (by simp [PlaceholderTable.tokens, PlaceholderTable.size])

/-- The blocks hold nothing but tokens of math that has been stored. -/
def Draft.HoldsMath (d : Draft) : Prop :=
  ∀ x ∈ d.blocks.contents, ∃ k < d.math.size, x = placeholder Draft.mathName k

section StandIn

variable {d : Draft}

theorem Draft.HoldsMath.find?_eq_none (h : d.HoldsMath) :
    d.blocks.entries.find? (·.2 == placeholder Draft.mathName d.math.size) = none := by
  refine List.find?_eq_none.2 fun entry hentry => ?_
  obtain ⟨k, hk, heq⟩ := h entry.2 (List.of_mem_zip hentry).2
  rw [heq, beq_iff_eq]
  intro hsame
  exact absurd (placeholder_injective _ hsame) (Nat.ne_of_lt hk)

theorem exists_of_mem_entries {entry : Text × Text} (h : entry ∈ d.math.entries) :
    ∃ k < d.math.size, entry.1 = placeholder d.math.name k := by
  obtain ⟨k, hk, heq⟩ := List.mem_map.1 (List.of_mem_zip h).1
  exact ⟨k, List.mem_range.1 hk, heq.symm⟩

/-- The token of new math stands for itself, as long as no block holds it. -/
theorem Draft.HoldsMath.standIn_eq (h : d.HoldsMath) :
    d.standIn (placeholder Draft.mathName d.math.size) =
      placeholder Draft.mathName d.math.size := by
  rw [Draft.standIn, h.find?_eq_none]

/-- A block that holds the token of new math stands for it. -/
theorem standIn_of_new_block {e : Draft} {block : Text} (hholds : d.HoldsMath)
    (he : e.blocks.entries = d.blocks.entries ++ [(block, placeholder Draft.mathName d.math.size)]) :
    e.standIn (placeholder Draft.mathName d.math.size) =
      "\n\n".toList ++ block ++ "\n\n".toList := by
  rw [Draft.standIn, he, List.find?_append, hholds.find?_eq_none, List.find?_singleton]
  simp

/-- A block that holds the token of new math does not stand for other math. -/
theorem standIn_of_other_block {e : Draft} {block : Text} {k : Nat} (hk : k < d.math.size)
    (he : e.blocks.entries = d.blocks.entries ++ [(block, placeholder Draft.mathName d.math.size)]) :
    e.standIn (placeholder Draft.mathName k) = d.standIn (placeholder Draft.mathName k) := by
  have hne : (placeholder Draft.mathName d.math.size == placeholder Draft.mathName k) = false := by
    rw [beq_eq_false_iff_ne]
    intro hsame
    exact absurd (placeholder_injective _ hsame) (Nat.ne_of_gt hk)
  rw [Draft.standIn, he, List.find?_append, List.find?_singleton, hne]
  simp [Draft.standIn]

/-- Math that is lifted later changes nothing of what stands for the math before it. -/
theorem minted_liftSpan (hmath : d.math.name = Draft.mathName) (hholds : d.HoldsMath)
    (place : MathPlace) (source : Text) : ((liftSpan place source).run d).2.minted =
      d.minted ++ [(((liftSpan place source).run d).1, source)] := by
  have hentries : ((liftSpan place source).run d).2.math.entries =
      d.math.entries ++ [(placeholder Draft.mathName d.math.size, source)] := by
    rw [liftSpan_math, PlaceholderTable.entries_append, hmath, ← hmath]
    rfl
  rw [Draft.minted, hentries, List.map_append, List.map_singleton]
  cases place with
  | inline =>
    have hstand : ((liftSpan .inline source).run d).2.standIn = d.standIn := rfl
    rw [hstand, hholds.standIn_eq, ← hmath]
    rfl
  | block =>
    have hblocks : ((liftSpan .block source).run d).2.blocks.entries = d.blocks.entries ++
        [(placeholder d.blocks.name d.blocks.size, placeholder Draft.mathName d.math.size)] := by
      have hrun : ((liftSpan .block source).run d).2.blocks =
          ⟨d.blocks.name, d.blocks.contents ++ [placeholder d.math.name d.math.size]⟩ := rfl
      rw [hrun, PlaceholderTable.entries_append, hmath]
      rfl
    have hold : d.math.entries.map (fun entry =>
        (((liftSpan .block source).run d).2.standIn entry.1, entry.2)) = d.minted := by
      refine List.map_congr_left fun entry hentry => ?_
      obtain ⟨k, hk, heq⟩ := exists_of_mem_entries hentry
      rw [heq, hmath, standIn_of_other_block hk hblocks]
    rw [hold, standIn_of_new_block hholds hblocks]
    rfl

end StandIn

/-! ## Lifting a span -/

/-- The table that tokens of a kind belong to. -/
def Draft.table (d : Draft) : TokenKind → PlaceholderTable
  | .math => d.math
  | .block => d.blocks

/-- The tokens of a script have been made, and nowhere else does it read like one. -/
structure Draft.Numbers (d : Draft) (g : Script) : Prop where
  names : ∀ kind : TokenKind, ¬ kind.name <:+: plain g
  tokens : ∀ t ∈ Script.tokens g, t.number < (d.table t.kind).size

/-- What each lifted span keeps: when what has been lifted so far is put back, this gives the
document. -/
structure Undone (document : Text) (d : Draft) (s : Text) : Prop where
  mathName : d.math.name = Draft.mathName
  blockName : d.blocks.name = Draft.blockName
  holds : d.HoldsMath
  script : ∃ g, Script.text g = s ∧ d.Numbers g
  back : undo d.minted.reverse s = some document

section LiftSpan

variable {d : Draft} {place : MathPlace} {source : Text}

/-- What is put in place of a span is a new token, perhaps between blank lines. -/
theorem exists_liftSpan_token (hmath : d.math.name = Draft.mathName)
    (hblock : d.blocks.name = Draft.blockName) (place : MathPlace) (source : Text) :
    ∃ x t y, ((liftSpan place source).run d).1 = x ++ (Token.text t ++ y) ∧ (∀ c ∈ x ++ y, c = '\n') ∧
      t.number = (d.table t.kind).size ∧
      t.number < (((liftSpan place source).run d).2.table t.kind).size := by
  cases place with
  | inline =>
    refine ⟨[], ⟨.math, d.math.size⟩, [], ?_, by simp, rfl, ?_⟩
    · rw [show ((liftSpan .inline source).run d).1 = placeholder d.math.name d.math.size from rfl, hmath]
      simp [Token.text, TokenKind.name]
    · simp [Draft.table, liftSpan_math, PlaceholderTable.size]
  | block =>
    refine ⟨"\n\n".toList, ⟨.block, d.blocks.size⟩, "\n\n".toList, ?_, by simp, rfl, ?_⟩
    · have hrun : ((liftSpan .block source).run d).1 =
          "\n\n".toList ++ placeholder d.blocks.name d.blocks.size ++ "\n\n".toList := rfl
      rw [hrun, hblock]
      simp [Token.text, TokenKind.name]
    · have hrun : ((liftSpan .block source).run d).2.blocks =
          ⟨d.blocks.name, d.blocks.contents ++ [placeholder d.math.name d.math.size]⟩ := rfl
      simp [Draft.table, hrun, PlaceholderTable.size]

theorem size_le_liftSpan (place : MathPlace) (source : Text) (kind : TokenKind) :
    (d.table kind).size ≤ (((liftSpan place source).run d).2.table kind).size := by
  obtain ⟨hmath, hblocks⟩ := liftSpan_extends place source d
  cases kind
  · exact hmath.length_le
  · exact hblocks.length_le

theorem holdsMath_liftSpan (hmath : d.math.name = Draft.mathName) (h : d.HoldsMath) :
    ((liftSpan place source).run d).2.HoldsMath := by
  intro x hx
  have hsize := size_le_liftSpan (d := d) place source .math
  have hless : d.math.size < ((liftSpan place source).run d).2.math.size := by
    simp [liftSpan_math, PlaceholderTable.size]
  have hold : x ∈ d.blocks.contents →
      ∃ k < ((liftSpan place source).run d).2.math.size, x = placeholder Draft.mathName k := by
    intro hx
    obtain ⟨k, hk, heq⟩ := h x hx
    exact ⟨k, hk.trans_le hsize, heq⟩
  cases place with
  | inline => exact hold hx
  | block =>
    have hblocks : ((liftSpan .block source).run d).2.blocks.contents =
        d.blocks.contents ++ [placeholder d.math.name d.math.size] := rfl
    rw [hblocks] at hx
    rcases List.mem_append.1 hx with hx | hx
    · exact hold hx
    · exact ⟨d.math.size, hless, by rw [List.mem_singleton.1 hx, hmath]⟩

end LiftSpan

theorem not_mem_of_number {d : Draft} {g : Script} {t : Token}
    (h : ∀ t ∈ Script.tokens g, t.number < (d.table t.kind).size)
    (ht : t.number = (d.table t.kind).size) : Glyph.token t ∉ g := by
  intro hmem
  obtain ⟨a, b, rfl⟩ := List.append_of_mem hmem
  exact absurd (h t (by simp)) (by omega)

/-- A new token with line breaks around it makes nothing else read like a token. -/
theorem not_name_around {gf gm gr : Script} {x y : Text} {t : Token} {kind : TokenKind}
    (h : ¬ kind.name <:+: plain (gf ++ gm ++ gr)) (hbreaks : ∀ c ∈ x ++ y, c = '\n') :
    ¬ kind.name <:+: plain (gf ++ (ofText x ++ .token t :: ofText y) ++ gr) := by
  have hne : kind.name ≠ [] := by cases kind <;> decide
  have hdisjoint : ∀ c ∈ kind.name, c ∉ x ++ '_' :: y := by
    intro c hc hmem
    have hcases : c = '\n' ∨ c = '_' := by
      rcases List.mem_append.1 hmem with hmem | hmem
      · exact .inl (hbreaks c (List.mem_append_left _ hmem))
      · rcases List.mem_cons.1 hmem with rfl | hmem
        · exact .inr rfl
        · exact .inl (hbreaks c (List.mem_append_right _ hmem))
    have hname : ∀ kind : TokenKind, '\n' ∉ kind.name ∧ '_' ∉ kind.name := by
      intro kind
      cases kind <;> decide
    rcases hcases with rfl | rfl
    · exact (hname kind).1 hc
    · exact (hname kind).2 hc
  have hplain : plain (gf ++ (ofText x ++ .token t :: ofText y) ++ gr) =
      plain gf ++ ((x ++ '_' :: y) ++ plain gr) := by simp
  rw [hplain, infix_around hne (by simp) hdisjoint]
  rintro (hf | hr)
  · exact h (hf.trans (plain_isInfix ⟨[], gm ++ gr, by simp⟩))
  · exact h (hr.trans (plain_isInfix (List.suffix_append _ gr).isInfix))

/-- A new token is found at one place only, also with line breaks around it. -/
theorem eq_of_new_token {gf gr : Script} {x y u v : Text} {t : Token}
    (hnames : ¬ t.kind.name <:+: plain (gf ++ (ofText x ++ .token t :: ofText y) ++ gr))
    (hf : Glyph.token t ∉ gf) (hr : Glyph.token t ∉ gr)
    (h : Script.text (gf ++ (ofText x ++ .token t :: ofText y) ++ gr) =
      u ++ (x ++ (t.text ++ y) ++ v)) : u = Script.text gf := by
  have hsplit : Script.text (gf ++ (ofText x ++ .token t :: ofText y) ++ gr) =
      (u ++ x) ++ ("__".toList ++ t.kind.name ++ '_' :: ofNat t.number ++ "__".toList) ++ (y ++ v) := by
    rw [h, t.text_eq]
    simp
  obtain ⟨ga, n, gb, hg, hga, hn, -⟩ := text_eq_append_token hnames (not_mem_ofNat _) hsplit
  obtain rfl := ofNat_injective hn
  have hchars : ∀ z : Text, Glyph.token t ∉ ofText z := by
    intro z hmem
    obtain ⟨c, -, hc⟩ := List.mem_map.1 hmem
    exact absurd hc (by simp)
  have hsame : (gf ++ ofText x) ++ .token t :: (ofText y ++ gr) = ga ++ .token t :: gb := by
    rw [← hg]
    simp
  have hfront := (List.append_cons_inj_of_notMem (by simp [hf, hchars]) (by simp [hr, hchars])).1 hsame
  rw [← hfront.1] at hga
  simpa using hga.symm

theorem not_tokenChar_of_mem_mathDelimiters {c : Char} (h : c ∈ mathDelimiters) : ¬ TokenChar c := by
  have hall : ∀ c ∈ mathDelimiters, ¬ TokenChar c := by simp [mathDelimiters, TokenChar]
  exact hall c h

/-- A lifted span is put back first, and then the text is what it was before. -/
theorem Undone.liftSpan {document : Text} {d : Draft} {front source rest : Text}
    (h : Undone document d (front ++ source ++ rest)) (place : MathPlace)
    (hsource : DelimitedSpan source) : Undone document ((LatexPreview.liftSpan place source).run d).2
      (front ++ ((LatexPreview.liftSpan place source).run d).1 ++ rest) := by
  obtain ⟨⟨c, hc, v, hfirst⟩, e, he, w, hlast⟩ := hsource
  obtain ⟨g, htext, hnumbers⟩ := h.script
  obtain ⟨gf, gm, gr, rfl, rfl, -, rfl, -, -⟩ := split_part htext hfirst
    (not_tokenChar_of_mem_mathDelimiters hc) hlast (not_tokenChar_of_mem_mathDelimiters he)
  obtain ⟨x, t, y, hnew, hbreaks, hnumber, hless⟩ :=
    exists_liftSpan_token h.mathName h.blockName place source
  have hold : ∀ s ∈ Script.tokens gf ++ Script.tokens gr, s.number < (d.table s.kind).size := by
    intro s hs
    refine hnumbers.tokens s ?_
    simp only [tokens_append, List.mem_append] at hs ⊢
    tauto
  have hnames := fun kind => not_name_around (t := t) (hnumbers.names kind) hbreaks
  have hreads : Script.text (gf ++ (ofText x ++ .token t :: ofText y) ++ gr) =
      Script.text gf ++ ((LatexPreview.liftSpan place source).run d).1 ++ Script.text gr := by
    rw [hnew]
    simp
  have honly : ∀ u v, Script.text gf ++ ((LatexPreview.liftSpan place source).run d).1 ++
      Script.text gr = u ++ (((LatexPreview.liftSpan place source).run d).1 ++ v) →
        u = Script.text gf := by
    intro u v huv
    refine eq_of_new_token (hnames t.kind) (not_mem_of_number (fun s hs => hold s ?_) hnumber)
      (not_mem_of_number (fun s hs => hold s ?_) hnumber) (u := u) (v := v) ?_
    · exact List.mem_append_left _ hs
    · exact List.mem_append_right _ hs
    · rw [hreads, huv, hnew]
  have hback := replaceOnly?_eq_some source (List.append_assoc _ _ _) honly
  refine ⟨?_, ?_, holdsMath_liftSpan h.mathName h.holds,
    ⟨gf ++ (ofText x ++ .token t :: ofText y) ++ gr, hreads, hnames, ?_⟩, ?_⟩
  · rw [liftSpan_math, ← h.mathName]
  · rw [liftSpan_blockName, h.blockName]
  · intro s hs
    have hcases : s ∈ Script.tokens gf ++ Script.tokens gr ∨ s = t := by
      simp only [tokens_append, tokens_ofText, tokens_token, List.nil_append, List.mem_append,
        List.mem_singleton] at hs ⊢
      tauto
    rcases hcases with hs | rfl
    · exact (hold s hs).trans_le (size_le_liftSpan place source s.kind)
    · exact hless
  · rw [minted_liftSpan h.mathName h.holds, List.reverse_append, List.reverse_singleton,
      List.singleton_append, undo_cons, hback]
    exact h.back

/-- Lifting all math can be undone. -/
theorem Undone.liftMath {document : Text} {d : Draft} {s : Text} (h : Undone document d s) :
    Undone document ((LatexPreview.liftMath s).run d).2 ((LatexPreview.liftMath s).run d).1 :=
  liftMath_keeps (P := Undone document) (fun _ _ _ _ place hsource h => h.liftSpan place hsource) h

/-- A text in which nothing reads like a token is found again when all math that has been lifted from
it is put back, the last span first; what stands for a span is found exactly once each time. -/
theorem liftMath_undone {s : Text} (hmath : ¬ Draft.mathName <:+: s) (hblock : ¬ Draft.blockName <:+: s) :
    undo ((liftMath s).run .fresh).2.minted.reverse ((liftMath s).run .fresh).1 = some s := by
  have hstart : Undone s .fresh s := by
    refine ⟨rfl, rfl, fun x hx => absurd hx List.not_mem_nil, ⟨ofText s, by simp, ?_, by simp⟩, rfl⟩
    intro kind
    rw [plain_ofText]
    cases kind
    · exact hmath
    · exact hblock
  exact hstart.liftMath.back

theorem liftMath_undone_nested :
    let s := "$$a$$b\\[$x\\]c$ \\begin\x7bgather\x7d\\(y\\)\\end\x7bgather\x7d".toList
    ¬ Draft.mathName <:+: s ∧ ¬ Draft.blockName <:+: s ∧
      undo ((liftMath s).run .fresh).2.minted.reverse ((liftMath s).run .fresh).1 = some s := by
  intro s
  have hmath : ¬ Draft.mathName <:+: s := by decide +kernel
  have hblock : ¬ Draft.blockName <:+: s := by decide +kernel
  exact ⟨hmath, hblock, liftMath_undone hmath hblock⟩

/-- In another order, spans are not found: the second one holds what stands for the first. -/
example : undo ((liftMath "$\\text\x7b\\(x\\)\x7d$".toList).run .fresh).2.minted
    ((liftMath "$\\text\x7b\\(x\\)\x7d$".toList).run .fresh).1 = none := by
  decide +kernel

end LatexPreview
