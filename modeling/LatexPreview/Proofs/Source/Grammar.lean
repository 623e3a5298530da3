import Mathlib
import LatexPreview.Proofs.Source.Nesting
import LatexPreview.Proofs.Source.Spans

/-!
# Documents without a fault

A grammar of documents in which nothing is left open: formulas, and rows of lines in which
braces and environments enclose other rows.  Behind each backslash in such a text stands one of
a few names; where none of them goes together with a word, there is no such command.

* `Formula` is what stands in a span of math
* `Content` is a row of lines, `Line` a single one, `document` a document with some content
* `Commands`: behind each backslash in a text stands one of some names
* `Line.commands`, `Formula.commands`: the names in a line, and in a formula
-/

namespace LatexPreview

open Pattern

/-! ## Formulas -/

/-- The characters that stand for nothing but themselves, and end no line. -/
def Ordinary (c : Char) : Prop := c ∉ ['\\', '$', '{', '}', '\n']

instance (c : Char) : Decidable (Ordinary c) := inferInstanceAs (Decidable (c ∉ _))

/-- The names of the commands of math mode. -/
def mathCommandWords : List Text := mathCommandNames.map (·.toList)

/-- What stands in a span of math: characters, commands of math mode and groups. -/
inductive Formula where
  | nil
  | char (c : Char) (ordinary : Ordinary c) (more : Formula)
  | command (name : Text) (known : name ∈ mathCommandWords) (more : Formula)
  | group (inner more : Formula)

/-- The text of a formula. -/
def Formula.text : Formula → Text
  | nil => []
  | char c _ more => c :: more.text
  | command name _ more => '\\' :: name ++ more.text
  | group inner more => braced inner.text ++ more.text

/-! ## Lines -/

/-- The kinds of spans of math that stand in a line of their own. -/
inductive SpanKind where
  | dollars
  | displayDollars
  | parens
  | brackets
  deriving DecidableEq

/-- The delimiters of a span. -/
def SpanKind.frame : SpanKind → Frame
  | dollars => (['$'], ['$'])
  | displayDollars => (['$', '$'], ['$', '$'])
  | parens => (['\\', '('], ['\\', ')'])
  | brackets => (['\\', '['], ['\\', ']'])

/-- A line that encloses nothing. -/
inductive Leaf where
  | prose (s : Text) (ordinary : ∀ c ∈ s, Ordinary c)
  | symbol (c : Char) (escapable : c ∈ ['\\', '{', '}', '$'])
  | math (kind : SpanKind) (f : Formula) (nonempty : f ≠ .nil)

/-- The text of a line that encloses nothing. -/
def Leaf.text : Leaf → Text
  | prose s _ => s
  | symbol c _ => ['\\', c]
  | math kind f _ => kind.frame.1 ++ f.text ++ kind.frame.2

/-- The name of an environment. -/
structure EnvName where
  text : Text
  nonempty : text ≠ []
  ordinary : ∀ c ∈ text, Ordinary c

/-- A line of a document: the first one, one that encloses nothing, or one of two lines that
enclose others. -/
inductive Line where
  | heading
  | leaf (l : Leaf)
  | openBrace
  | closeBrace
  | tag (side : TagSide) (name : EnvName)

/-- The text of a line. -/
def Line.text : Line → Text
  | heading => '\\' :: "documentclass".toList ++ braced "article".toList
  | leaf l => l.text
  | openBrace => ['{']
  | closeBrace => ['}']
  | tag side name => '\\' :: side.word ++ braced name.text

/-! ## Documents -/

/-- A row of lines in which braces and environments enclose other rows. -/
inductive Content where
  | nil
  | leaf (l : Leaf) (more : Content)
  | group (inner more : Content)
  | env (name : EnvName) (inner more : Content)

/-- The lines of a content. -/
def Content.lines : Content → List Line
  | nil => []
  | leaf l more => .leaf l :: more.lines
  | group inner more => .openBrace :: inner.lines ++ .closeBrace :: more.lines
  | env name inner more => .tag .opening name :: inner.lines ++ .tag .closing name :: more.lines

/-- The environment that holds the content of a document. -/
def documentName : EnvName := ⟨"document".toList, by simp, by simp [Ordinary]⟩

/-- The content of a document with its tags. -/
def Content.wrapped (content : Content) : Content := .env documentName content .nil

/-- A document with some content. -/
def document (content : Content) : Text :=
  Text.join ['\n'] ((.heading :: content.wrapped.lines).map Line.text)

/-- Lines behind one that ends. -/
def rows (ls : List Line) : Text := ls.flatMap fun l => '\n' :: l.text

/-- Lines behind the first line of a document. -/
def withHeading (ls : List Line) : Text := Line.heading.text ++ rows ls

theorem document_eq (content : Content) :
    document content = withHeading content.wrapped.lines := by
  have hjoin : ∀ (s : Text) (ls : List Line), Text.join ['\n'] (s :: ls.map Line.text) =
      s ++ rows ls := by
    intro s ls
    induction ls generalizing s with
    | nil => simp [Text.join, rows]
    | cons l ls ih =>
      rw [List.map_cons, Text.join, ih]
      simp [rows]
  exact hjoin _ _

/-- A document with a formula in a line of its own. -/
example : document (.leaf (.math .parens (.command "alpha".toList (by decide)
    (.group (.char 'x' (by decide) .nil) .nil)) (by simp)) .nil) =
    ("\\documentclass\x7barticle\x7d\n\\begin\x7bdocument\x7d\n" ++
      "\\(\\alpha\x7bx\x7d\\)\n\\end\x7bdocument\x7d").toList := by
  decide

/-! ## Names behind backslashes -/

namespace Text

/-- Neither of two words begins with the other. -/
def Clash (v w : Text) : Prop := ¬ v <+: w ∧ ¬ w <+: v

instance (v w : Text) : Decidable (Clash v w) := inferInstanceAs (Decidable (_ ∧ _))

theorem Clash.append {v w : Text} (h : Clash v w) (x y : Text) : Clash (v ++ x) (w ++ y) := by
  constructor
  · intro hp
    have hv : v <+: w ++ y := (List.prefix_append v x).trans hp
    rcases List.prefix_or_prefix_of_prefix hv (List.prefix_append w y) with hvw | hwv
    · exact h.1 hvw
    · exact h.2 hwv
  · intro hp
    have hw : w <+: v ++ x := (List.prefix_append w y).trans hp
    rcases List.prefix_or_prefix_of_prefix hw (List.prefix_append v x) with hwv | hvw
    · exact h.2 hwv
    · exact h.1 hvw

/-- Behind each backslash in the first text stands one of some names, when the second text
follows, or nothing. -/
def Commands (names : List Text) : Text → Text → Prop
  | [], _ => True
  | c :: x, s => (c = '\\' → x ++ s = [] ∨ ∃ n ∈ names, n <+: x ++ s) ∧ Commands names x s

variable {names : List Text} {x y s w : Text}

theorem commands_append :
    Commands names (x ++ y) s ↔ Commands names x (y ++ s) ∧ Commands names y s := by
  induction x with
  | nil => simp [Commands]
  | cons c x ih => simp [Commands, ih, and_assoc]

theorem commands_of_not_mem (h : '\\' ∉ x) : Commands names x s := by
  induction x with
  | nil => trivial
  | cons c x ih =>
    obtain ⟨hc, hx⟩ := not_or.1 (List.mem_cons.not.1 h)
    exact ⟨fun heq => absurd heq.symm hc, ih hx⟩

theorem commands_word {n : Text} (hn : n ∈ names) (hplain : '\\' ∉ n) :
    Commands names ('\\' :: n) s :=
  ⟨fun _ => .inr ⟨n, hn, List.prefix_append n s⟩, commands_of_not_mem hplain⟩

theorem Commands.mono {ms : List Text} (h : Commands names x s) (hsub : ∀ n ∈ names, n ∈ ms) :
    Commands ms x s := by
  induction x with
  | nil => trivial
  | cons c x ih =>
    exact ⟨fun hc => (h.1 hc).imp id fun ⟨n, hn, hp⟩ => ⟨n, hsub n hn, hp⟩, ih h.2⟩

/-- A command that goes together with none of the names does not occur. -/
theorem Commands.avoids (h : Commands names x s) (hw : w ≠ []) (hclash : ∀ n ∈ names, Clash n w) :
    Avoids ('\\' :: w) x s := by
  induction x with
  | nil => trivial
  | cons c x ih =>
    refine ⟨fun hp => ?_, ih h.2⟩
    obtain ⟨hc, hword⟩ := List.cons_prefix_cons.1 hp
    rcases h.1 hc.symm with hnil | ⟨n, hn, hname⟩
    · rw [hnil] at hword
      exact hw (List.prefix_nil.1 hword)
    · rcases List.prefix_or_prefix_of_prefix hname hword with hnw | hwn
      · exact (hclash n hn).1 hnw
      · exact (hclash n hn).2 hwn

theorem Avoids.mono (h : Avoids w x s) (v : Text) : Avoids (w ++ v) x s := by
  induction x with
  | nil => trivial
  | cons c x ih => exact ⟨fun hp => h.1 ((List.prefix_append w v).trans hp), ih h.2⟩

end Text

open Text

/-! ## Names in formulas and lines -/

theorem letters_of_mem_mathCommandWords {name : Text} (h : name ∈ mathCommandWords) :
    name ≠ [] ∧ ∀ c ∈ name, c.isAlpha := by
  have hall : mathCommandWords.all (fun name => !name.isEmpty && name.all Char.isAlpha) := by
    decide
  simpa using List.all_eq_true.1 hall name h

theorem Formula.commands (f : Formula) (s : Text) : Commands mathCommandWords f.text s := by
  induction f generalizing s with
  | nil => trivial
  | char c hc more ih =>
    exact ⟨fun heq => absurd (heq ▸ hc) (by decide), ih s⟩
  | command name hname more ih =>
    have hplain : '\\' ∉ name := fun hmem =>
      absurd ((letters_of_mem_mathCommandWords hname).2 _ hmem) (by decide)
    exact commands_append.2 ⟨commands_word hname hplain, ih s⟩
  | group inner more ihinner ihmore =>
    refine commands_append.2 ⟨?_, ihmore s⟩
    refine ⟨fun heq => absurd heq (by decide), commands_append.2 ⟨ihinner _, ?_⟩⟩
    exact commands_of_not_mem (by decide)

/-- What stands behind the text of a line. -/
def AtLineEnd (s : Text) : Prop := s = [] ∨ ∃ r, s = '\n' :: r

theorem atLineEnd_rows (ls : List Line) : AtLineEnd (rows ls) := by
  cases ls with
  | nil => exact .inl rfl
  | cons l ls => exact .inr ⟨_, rfl⟩

/-- The names behind the backslashes of the delimiters. -/
def SpanKind.names : SpanKind → List Text
  | dollars | displayDollars => []
  | parens => [['('], [')']]
  | brackets => [['['], [']']]

/-- The names behind the backslashes of a line. -/
def Line.names : Line → List Text
  | heading => ["documentclass".toList ++ braced "article".toList]
  | leaf (.prose ..) | openBrace | closeBrace => []
  | leaf (.symbol c _) => [[c], ['\n']]
  | leaf (.math kind ..) => kind.names ++ mathCommandWords
  | tag side name => [side.word ++ braced name.text]

theorem EnvName.not_mem (name : EnvName) {c : Char} (hc : ¬ Ordinary c) : c ∉ name.text :=
  fun hmem => hc (name.ordinary c hmem)

theorem TagSide.not_mem (side : TagSide) (name : EnvName) : '\\' ∉ side.word ++ braced name.text := by
  have hname : '\\' ∉ name.text := name.not_mem (by decide)
  cases side <;> simp [word, braced, hname]

theorem Line.commands (l : Line) {s : Text} (hs : AtLineEnd s) : Commands l.names l.text s := by
  cases l with
  | heading => exact commands_word List.mem_cons_self (by decide)
  | openBrace | closeBrace => exact commands_of_not_mem (by decide)
  | tag side name => exact commands_word (by simp [Line.names]) (side.not_mem name)
  | leaf l =>
    cases l with
    | prose t ht =>
      exact commands_of_not_mem fun hmem => absurd (ht _ hmem) (by decide)
    | symbol c hc =>
      refine ⟨fun _ => .inr ⟨[c], by simp [Line.names], List.prefix_append [c] s⟩, fun _ => ?_,
        trivial⟩
      rcases hs with rfl | ⟨r, rfl⟩
      · exact .inl rfl
      · exact .inr ⟨['\n'], by simp [Line.names], List.prefix_append ['\n'] r⟩
    | math kind f hf =>
      have hframe : ∀ s, Commands kind.names kind.frame.1 s ∧ Commands kind.names kind.frame.2 s := by
        intro s
        cases kind <;> simp [SpanKind.frame, SpanKind.names, Commands]
      rw [Line.text, Leaf.text]
      refine commands_append.2 ⟨commands_append.2 ⟨?_, ?_⟩, ?_⟩
      · exact (hframe _).1.mono (by simp +contextual [Line.names])
      · exact (f.commands _).mono (by simp +contextual [Line.names])
      · exact (hframe _).2.mono (by simp +contextual [Line.names])

/-! ## Characters of formulas -/

theorem Formula.noDollar (f : Formula) : '$' ∉ f.text := by
  induction f with
  | nil => simp [text]
  | char c hc more ih =>
    have hne : '$' ≠ c := fun heq => absurd (heq ▸ hc) (by decide)
    simp [text, ih, hne]
  | command name hname more ih =>
    have hplain : '$' ∉ name := fun hmem =>
      absurd ((letters_of_mem_mathCommandWords hname).2 _ hmem) (by decide)
    simp [text, ih, hplain]
  | group inner more ihinner ihmore => simp [text, braced, ihinner, ihmore]

/-- No formula ends with a backslash. -/
theorem Formula.getLast?_ne (f : Formula) {b : Option Char} (hb : b ≠ some '\\') :
    f.text.getLast?.or b ≠ some '\\' := by
  induction f generalizing b with
  | nil => exact hb
  | char c hc more ih =>
    rw [text, ← List.singleton_append, getLast?_append_or]
    refine ih fun heq => ?_
    obtain rfl : c = '\\' := by simpa using heq
    exact absurd hc (by decide)
  | command name hname more ih =>
    obtain ⟨hne, halpha⟩ := letters_of_mem_mathCommandWords hname
    rw [text, getLast?_append_or]
    refine ih fun heq => ?_
    obtain ⟨front, last, hlast⟩ := (List.eq_nil_or_concat name).resolve_left hne
    rw [hlast, List.concat_eq_append, ← List.cons_append, getLast?_append_or] at heq
    obtain rfl : last = '\\' := by simpa using heq
    exact absurd (halpha '\\' (by simp [hlast])) (by decide)
  | group inner more ihinner ihmore =>
    rw [text, braced, getLast?_append_or, getLast?_append_or]
    exact ihmore (by simp)

end LatexPreview
