import Mathlib
import LatexPreview.Proofs.Source.Balance
import LatexPreview.Proofs.Source.ProseLines
import LatexPreview.Source.Findings

/-!
# No false alarms

The checks find nothing in a document of the grammar.  Each of them asks for something that is
known of such documents: the braces and the tags are balanced, single dollars and delimiters come
in pairs, and no name behind a backslash is one that the checks look for.

* `infix_withHeading`: the lines stand in the document
* `checkForbidden_document`: there is no command for images, in whatever letters
* `check_document`: nothing is found
-/

namespace LatexPreview

open Pattern Text

/-! ## Declarations -/

/-- The lines of a document stand in it. -/
theorem infix_withHeading {l : Line} {ls : List Line} (h : l ∈ .heading :: ls) :
    l.text <:+: withHeading ls := by
  rcases List.mem_cons.1 h with rfl | h
  · exact (List.prefix_append _ _).isInfix
  · obtain ⟨front, later, rfl⟩ := List.append_of_mem h
    refine ⟨Line.heading.text ++ rows front ++ ['\n'], rows later, ?_⟩
    simp [withHeading, rows]

theorem checkDeclarations_document (content : Content) :
    checkDeclarations (document content) = [] := by
  have hholds : ∀ d : Declaration, (document content).contains d.text = true := by
    intro d
    rw [contains_iff, document_eq]
    cases d with
    | documentClass =>
      exact (List.prefix_append _ _).isInfix.trans (infix_withHeading List.mem_cons_self)
    | beginDocument =>
      exact infix_withHeading (l := .tag .opening documentName) (by simp [Content.wrapped, Content.lines])
    | endDocument =>
      exact infix_withHeading (l := .tag .closing documentName) (by simp [Content.wrapped, Content.lines])
  simp [checkDeclarations, hholds]

/-! ## Images -/

/-- Only a backslash is a form of the backslash. -/
theorem eq_of_sameLetter_backslash {c : Char} (h : sameLetter '\\' c = true) : c = '\\' := by
  have hlower : c.toLower = '\\' → c = '\\' := by
    intro hc
    unfold Char.toLower at hc
    split at hc
    · have hval : c.val + ('a'.val - 'A'.val) = '\\'.val := congrArg Char.val hc
      grind
    · exact hc
  simp only [sameLetter, otherForms, Bool.or_eq_true, beq_iff_eq] at h
  rcases h with (h | h) | h
  · exact h
  · exact hlower h
  · exact absurd h (by simp)

/-- The name of the command for images. -/
def imageWord : Text := "includegraphics".toList

/-- The letters of the name cannot be forms of those in the other one. -/
def Unlike (n : Text) : Prop := (List.zipWith sameLetter imageWord n).all id = false

instance (n : Text) : Decidable (Unlike n) := inferInstanceAs (Decidable (_ = _))

theorem all_sameLetter {w x n r s : Text} (h : List.Forall₂ (fun a c => sameLetter a c = true) w x)
    (heq : n ++ r = x ++ s) : (List.zipWith sameLetter w n).all id = true := by
  induction h generalizing n with
  | nil => rfl
  | @cons a c w x hfirst _ ih =>
    cases n with
    | nil => rfl
    | cons d n =>
      obtain ⟨rfl, hlater⟩ := List.cons.inj heq
      simp [hfirst, ih hlater]

/-- Where the command for images stands, a backslash is followed by forms of its letters. -/
theorem matches_imageCommand {s t : Cursor} (h : imageCommandPattern.Matches s t) :
    ∃ x, s.rest = '\\' :: x ++ t.rest ∧
      List.Forall₂ (fun a c => sameLetter a c = true) imageWord x := by
  obtain ⟨x, hs, hall⟩ := matches_caseless h
  obtain ⟨c, x, hc, hword, rfl⟩ := List.forall₂_cons_left_iff.1 hall
  rw [eq_of_sameLetter_backslash hc] at hs
  exact ⟨x, hs, hword⟩

theorem opens_imageCommand : imageCommandPattern.Opens '\\' := by
  intro s t h
  obtain ⟨x, hs, -⟩ := matches_imageCommand h
  exact ⟨x, hs⟩

/-- Behind names that are unlike its own, the command for images does not stand. -/
theorem Text.Commands.skips_imageCommand {names : List Text} {x s : Text} (h : Commands names x s)
    (hnames : ∀ n ∈ names, Unlike n) (b : Option Char) : imageCommandPattern.Skips b x s := by
  induction x generalizing b with
  | nil => trivial
  | cons c x ih =>
    refine ⟨Option.eq_none_iff_forall_ne_some.2 fun stop hstop => ?_, ih h.2 _⟩
    obtain ⟨y, hy, hword⟩ := matches_imageCommand (matches_of_at? hstop)
    obtain ⟨rfl, hrest⟩ := List.cons.inj hy
    rcases h.1 rfl with hnil | ⟨n, hn, r, hr⟩
    · have hlength := hword.length_eq
      obtain ⟨rfl, -⟩ := List.append_eq_nil_iff.1 (hrest.symm.trans hnil)
      exact absurd hlength (by decide)
    · have hall := all_sameLetter hword (hr.trans hrest)
      exact absurd hall (by rw [hnames n hn]; decide)

theorem Line.unlike {l : Line} {n : Text} (hn : n ∈ l.names) : Unlike n := by
  cases l with
  | heading =>
    rw [List.mem_singleton.1 hn]
    decide
  | openBrace | closeBrace => exact absurd hn (by simp [names])
  | tag side name =>
    rw [List.mem_singleton.1 hn]
    cases side <;> rfl
  | leaf l =>
    cases l with
    | prose t ht => exact absurd hn (by simp [names])
    | symbol c hc =>
      simp only [names, List.mem_cons, List.not_mem_nil, or_false] at hn hc
      rcases hn with rfl | rfl
      · rcases hc with rfl | rfl | rfl | rfl <;> decide
      · decide
    | math kind f hf =>
      have hwords : mathCommandWords.all fun n => decide (Unlike n) := by decide
      rcases List.mem_append.1 hn with hn | hn
      · cases kind <;> simp only [SpanKind.names, List.mem_cons, List.not_mem_nil, or_false] at hn
        · rcases hn with rfl | rfl <;> decide
        · rcases hn with rfl | rfl <;> decide
      · exact of_decide_eq_true (List.all_eq_true.1 hwords n hn)

theorem checkForbidden_document (content : Content) : checkForbidden (document content) = [] := by
  have hskips : imageCommandPattern.Skips none (document content) [] := by
    rw [document_eq]
    exact skips_withHeading (opens_imageCommand.skipsLineEnd (by decide)) fun l _ b s hs =>
      (l.commands hs).skips_imageCommand (fun n hn => Line.unlike hn) b
  rw [checkForbidden, occursIn_eq_false opens_imageCommand.consumes hskips]
  rfl

/-! ## Delimiters -/

theorem checkInlineMath_document (content : Content) :
    checkInlineMath (document content) = [] := by
  have heven := countSingleDollars_withHeading content.wrapped.lines
  rw [checkInlineMath, document_eq, heven]
  rfl

theorem checkDelimiters_document (content : Content) :
    checkDelimiters (document content) = [] := by
  refine List.flatMap_eq_nil_iff.2 fun pair _ => if_pos ?_
  rw [document_eq]
  cases pair with
  | brackets => exact count_delimiters .brackets (by decide) (by decide) _
  | parens => exact count_delimiters .parens (by decide) (by decide) _

/-! ## All checks -/

/-- In a document of the grammar, nothing is found. -/
theorem check_document (content : Content) : check (document content) = [] := by
  have hbraces : checkBraces (document content) = [] := by
    rw [checkBraces, scanBraces_document]
    rfl
  have henvironments : checkEnvironments (document content) = [] := by
    rw [checkEnvironments, envProblems_document]
    rfl
  have hprose : checkProse (document content) = [] := by
    rw [checkProse, document_eq, mathCommands_blankMath]
  have hchecks : (checks.flatMap fun c => c (document content)) = [] := by
    simp only [checks, List.flatMap_cons, List.flatMap_nil, checkDeclarations_document, hbraces,
      henvironments, checkForbidden_document, checkInlineMath_document, checkDelimiters_document,
      hprose, List.append_nil]
  rw [check, hchecks, ite_self]

end LatexPreview
