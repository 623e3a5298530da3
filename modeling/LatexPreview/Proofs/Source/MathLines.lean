import Mathlib
import LatexPreview.Proofs.Source.Rows

/-!
# Lines of math

In a document of the grammar, the searches for spans of math find the lines of math and nothing
else.

* `Line.isMath` tells whether a line is a span of some kind
* `lineWise_spans`, `lineWise_pairedDelimiters`, `lineWise_proseDollars`: the patterns of spans
* `countSingleDollars_withHeading`: there are two single dollars for each span between these
* `count_delimiters`: there are as many openers as closers
-/

namespace LatexPreview

open Pattern Text

/-- Is the line a span of one of some kinds? -/
def Line.isMath (kinds : List SpanKind) : Line → Bool
  | leaf (.math kind ..) => kinds.contains kind
  | _ => false

theorem Line.exists_of_isMath {kinds : List SpanKind} {l : Line} (h : l.isMath kinds = true) :
    ∃ kind f hf, l = .leaf (.math kind f hf) ∧ kind ∈ kinds := by
  cases l with
  | leaf l =>
    cases l with
    | math kind f hf => exact ⟨kind, f, hf, rfl, by simpa [isMath] using h⟩
    | prose | symbol => exact absurd h (by simp [isMath])
  | heading | openBrace | closeBrace | tag => exact absurd h (by simp [isMath])

theorem Line.isMath_mono {kinds ks : List SpanKind} {l : Line} (hl : l.isMath kinds = false)
    (hks : ∀ k ∈ ks, k ∈ kinds) : l.isMath ks = false := by
  cases h : l.isMath ks with
  | false => rfl
  | true =>
    obtain ⟨kind, f, hf, rfl, hk⟩ := exists_of_isMath h
    exact absurd hl (by simpa [isMath] using hks kind hk)

/-! ## Names -/

namespace Text

theorem clash_of_head {c d : Char} (h : d ≠ c) (v w : Text) : Clash (d :: v) (c :: w) :=
  ⟨fun hp => h (List.cons_prefix_cons.1 hp).1, fun hp => h (List.cons_prefix_cons.1 hp).1.symm⟩

end Text

/-- The characters behind the backslashes of delimiters. -/
def delimiterChars : List Char := ['[', ']', '(', ')']

theorem exists_cons_of_mem_mathCommandWords {name : Text} (h : name ∈ mathCommandWords) :
    ∃ d v, name = d :: v ∧ d.isAlpha := by
  obtain ⟨hne, halpha⟩ := letters_of_mem_mathCommandWords h
  obtain ⟨d, v, rfl⟩ := List.exists_cons_of_ne_nil hne
  exact ⟨d, v, rfl, halpha d (by simp)⟩

/-- The names in a line are words that begin with a letter, or single characters. -/
theorem Line.names_head {l : Line} {n : Text} (h : n ∈ l.names) :
    (∃ d v, n = d :: v ∧ d.isAlpha) ∨ ∃ d, n = [d] := by
  cases l with
  | heading => exact .inl ⟨'d', _, List.mem_singleton.1 h, by decide⟩
  | openBrace | closeBrace => exact absurd h (by simp [names])
  | tag side name =>
    rw [List.mem_singleton.1 h]
    cases side
    · exact .inl ⟨'b', _, rfl, by decide⟩
    · exact .inl ⟨'e', _, rfl, by decide⟩
  | leaf l =>
    cases l with
    | prose t ht => exact absurd h (by simp [names])
    | symbol c hc =>
      simp only [names, List.mem_cons, List.not_mem_nil, or_false] at h
      exact .inr (h.elim (fun h => ⟨c, h⟩) fun h => ⟨'\n', h⟩)
    | math kind f hf =>
      rcases List.mem_append.1 h with h | h
      · cases kind <;> simp only [SpanKind.names, List.mem_cons, List.not_mem_nil, or_false] at h
        · exact .inr (h.elim (fun h => ⟨_, h⟩) fun h => ⟨_, h⟩)
        · exact .inr (h.elim (fun h => ⟨_, h⟩) fun h => ⟨_, h⟩)
      · exact .inl (exists_cons_of_mem_mathCommandWords h)

theorem not_alpha_of_mem_delimiterChars {c : Char} (hc : c ∈ delimiterChars) : ¬ c.isAlpha := by
  have hall : delimiterChars.all fun c => !c.isAlpha := by decide
  simpa using List.all_eq_true.1 hall c hc

theorem clash_of_mem_mathCommandWords {c : Char} (hc : c ∈ delimiterChars) {n : Text}
    (h : n ∈ mathCommandWords) : Clash n [c] := by
  obtain ⟨d, v, rfl, hd⟩ := exists_cons_of_mem_mathCommandWords h
  refine clash_of_head ?_ v []
  rintro rfl
  exact not_alpha_of_mem_delimiterChars hc hd

theorem Line.clash_of_not_mem {l : Line} {c : Char} (hc : c ∈ delimiterChars)
    (h : [c] ∉ l.names) {n : Text} (hn : n ∈ l.names) : Clash n [c] := by
  rcases names_head hn with ⟨d, v, rfl, hd⟩ | ⟨d, rfl⟩
  · refine clash_of_head ?_ v []
    rintro rfl
    exact not_alpha_of_mem_delimiterChars hc hd
  · refine clash_of_head ?_ [] []
    rintro rfl
    exact h hn

/-- Only lines of math have delimiters with backslashes. -/
theorem Line.exists_math_of_mem_names {l : Line} {c : Char} (hc : c ∈ delimiterChars)
    (h : [c] ∈ l.names) : ∃ kind f hf, l = .leaf (.math kind f hf) ∧ [c] ∈ kind.names := by
  cases l with
  | heading =>
    have hlength := congrArg List.length (List.mem_singleton.1 h)
    exact absurd hlength (by simp [braced])
  | openBrace | closeBrace => exact absurd h (by simp [names])
  | tag side name =>
    have hlength := congrArg List.length (List.mem_singleton.1 h)
    exact absurd hlength (by cases side <;> simp [TagSide.word, braced])
  | leaf l =>
    cases l with
    | prose t ht => exact absurd h (by simp [names])
    | symbol d hd =>
      simp only [names, List.mem_cons, List.not_mem_nil, or_false, List.cons.injEq, and_true] at h
      have hother : ∀ c ∈ delimiterChars, c ∉ ['\\', '{', '}', '$'] ∧ c ≠ '\n' := by
        simp [delimiterChars]
      rcases h with rfl | rfl
      · exact absurd hd (hother _ hc).1
      · exact absurd rfl (hother _ hc).2
    | math kind f hf =>
      rcases List.mem_append.1 h with h | h
      · exact ⟨kind, f, hf, rfl, h⟩
      · obtain ⟨d, v, heq, hd⟩ := exists_cons_of_mem_mathCommandWords h
        obtain ⟨rfl, -⟩ := List.cons.inj heq
        exact absurd hd (not_alpha_of_mem_delimiterChars hc)

/-! ## Dollars -/

theorem Formula.exists_cons {f : Formula} (hf : f ≠ .nil) : ∃ c s, f.text = c :: s ∧ c ≠ '$' := by
  have hdollar := f.noDollar
  cases htext : f.text with
  | nil =>
    cases f with
    | nil => exact absurd rfl hf
    | char | command | group => exact absurd htext (by simp [Formula.text, braced])
  | cons c s =>
    rw [htext] at hdollar
    exact ⟨c, s, rfl, fun heq => hdollar (by simp [heq])⟩

/-- The lines with dollars. -/
theorem Line.noDollar_or (l : Line) : '$' ∉ l.text ∨ l.text = ['\\', '$'] ∨
    l.isMath [.dollars, .displayDollars] = true := by
  cases l with
  | heading => exact .inl (by decide)
  | openBrace | closeBrace => exact .inl (by decide)
  | tag side name =>
    have hname : '$' ∉ name.text := name.not_mem (by decide)
    exact .inl (by cases side <;> simp [text, TagSide.word, braced, hname])
  | leaf l =>
    cases l with
    | prose t ht => exact .inl fun hmem => absurd (ht _ hmem) (by decide)
    | symbol c hc =>
      by_cases hdollar : c = '$'
      · subst hdollar
        exact .inr (.inl rfl)
      · exact .inl (by simpa [text, Leaf.text] using Ne.symm hdollar)
    | math kind f hf =>
      cases kind with
      | dollars | displayDollars => exact .inr (.inr (by simp [isMath]))
      | parens | brackets =>
        exact .inl (by simp [text, Leaf.text, SpanKind.frame, f.noDollar])

/-! ## Delimiters -/

theorem AtLineEnd.not_prefix {c : Char} {w s : Text} (hs : AtLineEnd s) (hc : c ≠ '\n') :
    ¬ c :: w <+: s := by
  rcases hs with rfl | ⟨r, rfl⟩
  · simp
  · exact fun hp => hc (List.cons_prefix_cons.1 hp).1

theorem SpanKind.mem_delimiterChars {kind : SpanKind} {c : Char} (hc : [c] ∈ kind.names) :
    c ∈ delimiterChars := by
  cases kind <;> simp [names] at hc <;> rcases hc with rfl | rfl <;> decide

/-- No formula holds a delimiter with a backslash. -/
theorem Formula.avoids_delimiter (f : Formula) {c : Char} (hc : c ∈ delimiterChars) (s : Text) :
    Avoids ['\\', c] f.text s :=
  (f.commands s).avoids (by simp) fun _ hn => clash_of_mem_mathCommandWords hc hn

/-- No formula holds the delimiter behind it. -/
theorem Formula.avoids_closer (f : Formula) (kind : SpanKind) (s : Text) :
    Avoids kind.frame.2 f.text s := by
  cases kind with
  | dollars | displayDollars => exact avoids_of_not_mem f.noDollar
  | parens | brackets => exact f.avoids_delimiter (by decide) s

/-- Only spans of a kind have delimiters that are its own. -/
theorem Line.avoids_delimiter {l : Line} {kind : SpanKind} {c : Char} (hc : [c] ∈ kind.names)
    (h : l.isMath [kind] = false) {s : Text} (hs : AtLineEnd s) : Avoids ['\\', c] l.text s := by
  have hchar := SpanKind.mem_delimiterChars hc
  have hkind : ∀ k : SpanKind, [c] ∈ k.names → k = kind := by
    intro k hk
    cases k <;> cases kind <;> simp [SpanKind.names] at hk hc ⊢ <;>
      rcases hk with rfl | rfl <;> simp at hc
  refine (l.commands hs).avoids (by simp) fun n hn => clash_of_not_mem hchar (fun hmem => ?_) hn
  obtain ⟨k, f, hf, rfl, hk⟩ := exists_math_of_mem_names hchar hmem
  exact absurd h (by simp [isMath, hkind k hk])

/-- Only spans of a kind are opened by its first delimiter. -/
theorem Line.avoids_opener {l : Line} {kind : SpanKind} (hkind : kind ≠ .dollars)
    (h : l.isMath [kind] = false) {s : Text} (hs : AtLineEnd s) :
    Avoids kind.frame.1 l.text s := by
  cases kind with
  | dollars => exact absurd rfl hkind
  | parens => exact avoids_delimiter (by simp [SpanKind.names]) h hs
  | brackets => exact avoids_delimiter (by simp [SpanKind.names]) h hs
  | displayDollars =>
    rcases l.noDollar_or with hnone | hsymbol | hmath
    · exact avoids_of_not_mem hnone
    · rw [hsymbol]
      refine ⟨by simp [SpanKind.frame], fun hp => ?_, trivial⟩
      exact hs.not_prefix (by decide) (List.cons_prefix_cons.1 hp).2
    · obtain ⟨k, f, hf, rfl, hk⟩ := exists_of_isMath hmath
      obtain rfl : k = .dollars := by
        have hne : k ≠ .displayDollars := by simpa [isMath] using h
        simpa [hne] using hk
      obtain ⟨c, t, ht, hc⟩ := f.exists_cons hf
      refine avoids_append.2 ⟨avoids_append.2 ⟨⟨fun hp => ?_, trivial⟩, ?_⟩, fun hp => ?_, trivial⟩
      · have hfirst := (List.cons_prefix_cons.1 hp).2
        rw [ht] at hfirst
        exact hc (List.cons_prefix_cons.1 hfirst).1.symm
      · exact avoids_of_not_mem f.noDollar
      · exact hs.not_prefix (by decide) (List.cons_prefix_cons.1 hp).2

/-! ## Spans -/

theorem behindFrame_span (kind : SpanKind) (f : Formula) (s : Text) :
    behindFrame [kind.frame] (kind.frame.1 ++ f.text ++ kind.frame.2 ++ s) = some s := by
  rw [behindFrame, List.findSome?_singleton, List.append_assoc, List.append_assoc,
    dropFront?_append, Option.bind_some, find?_append (f.avoids_closer kind _)]
  rfl

theorem clash_openers {k kind : SpanKind} (hk : k ≠ .dollars) (hkind : kind ≠ .dollars)
    (h : k ≠ kind) : Clash k.frame.1 kind.frame.1 := by
  cases k <;> cases kind <;> simp_all [SpanKind.frame, Clash]

theorem behindFrame_spans {kinds : List SpanKind} (hkinds : .dollars ∉ kinds) {kind : SpanKind}
    (hkind : kind ∈ kinds) (f : Formula) (s : Text) :
    behindFrame (kinds.map SpanKind.frame) (kind.frame.1 ++ f.text ++ kind.frame.2 ++ s) =
      some s := by
  have hne : kind ≠ .dollars := fun h => hkinds (h ▸ hkind)
  induction kinds with
  | nil => exact absurd hkind (by simp)
  | cons k kinds ih =>
    obtain ⟨hk, hks⟩ := not_or.1 (List.mem_cons.not.1 hkinds)
    rw [List.map_cons, behindFrame, ← List.singleton_append, List.findSome?_append,
      ← behindFrame, ← behindFrame]
    by_cases heq : k = kind
    · rw [heq, behindFrame_span]
      rfl
    · have hnone : behindFrame [k.frame] (kind.frame.1 ++ f.text ++ kind.frame.2 ++ s) = none := by
        have hclash := clash_openers (Ne.symm hk) hne heq
        have hdrop : dropFront? k.frame.1 (kind.frame.1 ++ f.text ++ kind.frame.2 ++ s) = none := by
          rw [dropFront?_eq_none_iff, List.append_assoc, List.append_assoc]
          have happend := hclash.append [] (f.text ++ (kind.frame.2 ++ s))
          rw [List.append_nil] at happend
          exact happend.1
        rw [behindFrame, List.findSome?_singleton, hdrop]
        rfl
      rw [hnone, Option.none_or]
      exact ih hks ((List.mem_cons.1 hkind).resolve_left fun h => heq h.symm)

/-- Patterns of spans of some kinds match the lines that are such spans. -/
theorem lineWise_spans {p : Pattern} {kinds : List SpanKind}
    (hp : p.Spans (kinds.map SpanKind.frame)) (hconsumes : p.Consumes)
    (hkinds : .dollars ∉ kinds) : LineWise p (fun _ => True) (Line.isMath kinds) := by
  have hend : ∀ s, ∀ f ∈ kinds.map SpanKind.frame, Avoids f.1 ['\n'] s := by
    intro s f hf
    obtain ⟨kind, -, rfl⟩ := List.mem_map.1 hf
    cases kind <;> simp [SpanKind.frame, Avoids]
  refine ⟨hconsumes, fun b s => (hp.skips (hend s) b).1, ⟨trivial, rfl⟩,
    fun l b s _ hl hs => hp.skips (fun f hf => ?_) b, fun l s _ hl hs => ?_⟩
  · obtain ⟨kind, hkind, rfl⟩ := List.mem_map.1 hf
    refine l.avoids_opener (fun h => hkinds (h ▸ hkind)) (Line.isMath_mono hl ?_) hs
    simpa using hkind
  · obtain ⟨kind, f, hf, rfl, hkind⟩ := Line.exists_of_isMath hl
    exact Option.map_eq_some_iff.1 ((hp _ _).trans (behindFrame_spans hkinds hkind f s))

theorem lineWise_displayDollars :
    LineWise displayDollars (fun _ => True) (Line.isMath [.displayDollars]) :=
  lineWise_spans spans_displayDollars opens_displayDollars.consumes (by decide)

theorem lineWise_displayBrackets :
    LineWise displayBrackets (fun _ => True) (Line.isMath [.brackets]) :=
  lineWise_spans spans_displayBrackets opens_displayBrackets.consumes (by decide)

theorem lineWise_inlineParens : LineWise inlineParens (fun _ => True) (Line.isMath [.parens]) :=
  lineWise_spans spans_inlineParens opens_inlineParens.consumes (by decide)

theorem lineWise_pairedDelimiters : LineWise pairedDelimiters (fun _ => True)
    (Line.isMath [.displayDollars, .brackets, .parens]) :=
  lineWise_spans spans_pairedDelimiters
    (lineWise_displayDollars.consumes.alt
      (lineWise_displayBrackets.consumes.alt lineWise_inlineParens.consumes)) (by decide)

/-! ## Dollars in a line -/

/-- Where no span stands between double dollars, those between single ones are found. -/
theorem lineWise_proseDollars :
    LineWise proseDollars (fun l => l.isMath [.displayDollars] = false)
      (Line.isMath [.dollars]) := by
  refine ⟨opens_proseDollars.consumes, opens_proseDollars.skipsLineEnd (by decide), ⟨rfl, rfl⟩,
    fun l b s hkind hl hs => ?_, fun l s _ hl hs => ?_⟩
  · rcases l.noDollar_or with hnone | hsymbol | hmath
    · exact opens_proseDollars.skips hnone s
    · rw [hsymbol]
      have hslash : proseDollars.Skips b ['\\'] ('$' :: s) :=
        opens_proseDollars.skips (by decide) _
      refine ⟨hslash.1, Option.map_eq_none_iff.1 (at?_proseDollars _ _), trivial⟩
    · obtain ⟨k, f, hf, rfl, hk⟩ := Line.exists_of_isMath hmath
      simp only [List.mem_cons, List.not_mem_nil, or_false] at hk
      rcases hk with rfl | rfl
      · exact absurd hl (by simp [Line.isMath])
      · exact absurd hkind (by simp [Line.isMath])
  · obtain ⟨k, f, hf, rfl, hk⟩ := Line.exists_of_isMath hl
    obtain rfl := List.mem_singleton.1 hk
    obtain ⟨c, t, ht, hc⟩ := f.exists_cons hf
    have hlast : f.text.getLast? ≠ some '\\' := by
      simpa using f.getLast?_ne (b := none) (by simp)
    have hfind : find? ['$'] (f.text ++ (['$'] ++ s)) = some (f.text, s) :=
      find?_append (f.avoids_closer .dollars _)
    have hall : f.text.all (fun c => !"$".toList.contains c) = true := by
      refine List.all_eq_true.2 fun d hd => ?_
      have hne : d ≠ '$' := fun heq => f.noDollar (heq ▸ hd)
      simpa using hne
    refine Option.map_eq_some_iff.1 ((at?_proseDollars _ _).trans ?_)
    have htext : (Line.leaf (.math .dollars f hf)).text ++ s = ['$'] ++ (f.text ++ (['$'] ++ s)) := by
      simp [Line.text, Leaf.text, SpanKind.frame]
    rw [htext, behindDollars, if_neg (by decide), dropFront?_append, Option.bind_some, hfind,
      Option.bind_some, if_pos]
    rw [hall, show f.text.isEmpty = false by rw [ht]; rfl]
    simpa using hlast

/-! ## Counting dollars -/

theorem at?_singleDollar (b : Option Char) (s : Text) : (singleDollar.at? b ('$' :: s)) =
    if b != some '\\' && b != some '$' && s.head? != some '$' then some ⟨some '$', s, []⟩
    else none := by
  have hrun : singleDollar.at? b ('$' :: s) = if b != some '\\' && b != some '$' then
      (if s.head? != some '$' then some ⟨some '$', s, []⟩ else none) else none := rfl
  rw [hrun]
  split <;> split <;> simp_all

theorem opens_singleDollar : singleDollar.Opens '$' := ((opens_one '$').behindEdge _).append _

/-- A dollar with other characters around it is counted. -/
theorem countFrom_dollar {b : Option Char} {s : Text} (hslash : b ≠ some '\\')
    (hdollar : b ≠ some '$') (hs : s.head? ≠ some '$') :
    singleDollar.countFrom b (['$'] ++ s) = 1 + singleDollar.countFrom (some '$') s := by
  have hat : singleDollar.at? b (['$'] ++ s) = some ⟨some '$', s, []⟩ := by
    rw [List.singleton_append, at?_singleDollar, if_pos]
    simp [hslash, hdollar, hs]
  exact countFrom_hit opens_singleDollar.consumes (by simp) hat rfl

/-- A line between single dollars has two of them, and no other line has any. -/
theorem countFrom_singleDollar {l : Line} (hl : l.isMath [.displayDollars] = false)
    (b : Option Char) {s : Text} (hs : AtLineEnd s) :
    singleDollar.countFrom b ('\n' :: l.text ++ s) =
      (if l.isMath [.dollars] then 2 else 0) + singleDollar.countFrom l.last s := by
  cases hmath : l.isMath [.dollars] with
  | true =>
    obtain ⟨k, f, hf, rfl, hk⟩ := Line.exists_of_isMath hmath
    obtain rfl := List.mem_singleton.1 hk
    obtain ⟨c, t, ht, hc⟩ := f.exists_cons hf
    have hlast : f.text.getLast?.or (some '$') ≠ some '\\' ∧
        f.text.getLast?.or (some '$') ≠ some '$' := by
      refine ⟨f.getLast?_ne (by simp), fun heq => f.noDollar ?_⟩
      rw [ht, List.getLast?_eq_some_getLast (by simp), Option.some_or] at heq
      rw [ht]
      exact Option.some.inj heq ▸ List.getLast_mem _
    have hend : s.head? ≠ some '$' := by
      rcases hs with rfl | ⟨r, rfl⟩ <;> simp
    have htext : '\n' :: (Line.leaf (.math .dollars f hf)).text ++ s =
        ['\n'] ++ (['$'] ++ (f.text ++ (['$'] ++ s))) := by
      simp [Line.text, Leaf.text, SpanKind.frame]
    have hbehind : (Line.leaf (.math .dollars f hf)).last = some '$' :=
      getLast?_append_or (['$'] ++ f.text) ['$'] _
    rw [htext, countFrom_skips opens_singleDollar.consumes
        (opens_singleDollar.skips (by decide) _), List.getLast?_singleton, Option.some_or,
      countFrom_dollar (by decide) (by decide) (by simpa [ht] using hc),
      countFrom_skips opens_singleDollar.consumes (opens_singleDollar.skips f.noDollar _),
      countFrom_dollar hlast.1 hlast.2 hend, hbehind, if_pos rfl, ← Nat.add_assoc]
  | false =>
    have hskips : singleDollar.Skips b ('\n' :: l.text) s := by
      refine ⟨opens_singleDollar.skipsLineEnd (by decide) _ _, ?_⟩
      rcases l.noDollar_or with hnone | hsymbol | hother
      · exact opens_singleDollar.skips hnone s
      · rw [hsymbol]
        exact ⟨(opens_singleDollar.skips (x := ['\\']) (by decide) _).1, at?_singleDollar _ _,
          trivial⟩
      · obtain ⟨k, f, hf, rfl, hk⟩ := Line.exists_of_isMath hother
        simp only [List.mem_cons, List.not_mem_nil, or_false] at hk
        rcases hk with rfl | rfl
        · exact absurd hmath (by simp [Line.isMath])
        · exact absurd hl (by simp [Line.isMath])
    have hlast : ('\n' :: l.text).getLast?.or b = l.last := getLast?_append_or ['\n'] l.text b
    rw [countFrom_skips opens_singleDollar.consumes hskips, hlast]
    simp

/-- A line of blanks, or of nothing. -/
def proseLine (blanks : Text) (h : ∀ c ∈ blanks, Ordinary c) : Line := .leaf (.prose blanks h)

/-- There is an even number of single dollars. -/
theorem countSingleDollars_withHeading (ls : List Line) :
    countSingleDollars (withHeading ls) % 2 = 0 := by
  have herase : withoutPairedMath (withHeading ls) = withHeading (ls.map fun l =>
      if l.isMath [.displayDollars, .brackets, .parens] then proseLine [] (by simp) else l) :=
    lineWise_pairedDelimiters.replace_withHeading (fun _ _ => trivial) (proseLine [] (by simp))
  have hunpaired : ∀ m ∈ ls.map fun l => if l.isMath [.displayDollars, .brackets, .parens] then
      proseLine [] (by simp) else l, m.isMath [.displayDollars] = false := by
    intro m hm
    obtain ⟨l, -, rfl⟩ := List.mem_map.1 hm
    split
    · rfl
    · rename_i hl
      exact Line.isMath_mono (Bool.eq_false_iff.2 hl) (by simp)
  have heven : ∀ ms : List Line,
      (ms.map fun l => if l.isMath [.dollars] then 2 else 0).sum % 2 = 0 := by
    intro ms
    induction ms with
    | nil => rfl
    | cons l ms ih =>
      rw [List.map_cons, List.sum_cons]
      split <;> omega
  rw [countSingleDollars, herase, count_eq, withHeading,
    countFrom_skips opens_singleDollar.consumes
      (opens_singleDollar.skips (Line.heading.noDollar_or.resolve_right (by decide)) _),
    countFrom_rows opens_singleDollar.consumes fun l hl b s hs =>
      countFrom_singleDollar (hunpaired l hl) b hs]
  exact heven _

/-! ## Counting delimiters -/

/-- A word that stands once in a text is counted once. -/
theorem countFrom_lit_once {w x y s : Text} {b : Option Char} (hw : w ≠ [])
    (hx : Avoids w x (w ++ (y ++ s))) (hy : Avoids w y s) :
    (lit w).countFrom b (x ++ w ++ y ++ s) =
      1 + (lit w).countFrom ((x ++ w ++ y).getLast?.or b) s := by
  have hleads : (lit w).Leads [w] := by simpa using leads_lit w []
  have hconsumes : (lit w).Consumes := by
    obtain ⟨c, w, rfl⟩ := List.exists_cons_of_ne_nil hw
    exact (opens_lit c w).consumes
  obtain ⟨stop, hstop, hrest⟩ : ∃ stop, (lit w).at? (x.getLast?.or b) (w ++ (y ++ s)) = some stop ∧
      stop.rest = y ++ s :=
    Option.map_eq_some_iff.1 (run_lit_some.trans (dropFront?_append w (y ++ s)))
  rw [List.append_assoc, List.append_assoc, countFrom_skips hconsumes (hleads.skips (by simpa)),
    countFrom_hit hconsumes hw hstop hrest, countFrom_skips hconsumes (hleads.skips (by simpa)),
    getLast?_append_or, getLast?_append_or]

/-- A line that is a span of a kind has one of each of its delimiters, and no other line has
any. -/
theorem countFrom_side {kind : SpanKind} {c : Char} (hc : [c] ∈ kind.names) {l : Line}
    (b : Option Char) {s : Text} (hs : AtLineEnd s) :
    (lit ['\\', c]).countFrom b ('\n' :: l.text ++ s) =
      (if l.isMath [kind] then 1 else 0) + (lit ['\\', c]).countFrom l.last s := by
  have hlast : ('\n' :: l.text).getLast?.or b = l.last := getLast?_append_or ['\n'] l.text b
  cases hmath : l.isMath [kind] with
  | false =>
    have hskips : (lit ['\\', c]).Skips b ('\n' :: l.text) s := by
      have hleads : (lit ['\\', c]).Leads [['\\', c]] := leads_lit ['\\', c] []
      refine hleads.skips fun w hw => ?_
      obtain rfl := List.mem_singleton.1 hw
      exact ⟨by simp, Line.avoids_delimiter hc hmath hs⟩
    rw [countFrom_skips (opens_lit _ _).consumes hskips, hlast]
    simp
  | true =>
    obtain ⟨k, f, hf, rfl, hk⟩ := Line.exists_of_isMath hmath
    obtain rfl := List.mem_singleton.1 hk
    obtain ⟨o, e, hframe, hne, hside⟩ : ∃ o e, k.frame = (['\\', o], ['\\', e]) ∧
        (o ≠ e ∧ o ≠ '\\' ∧ e ≠ '\\') ∧ (c = o ∨ c = e) := by
      cases k with
      | dollars | displayDollars => exact absurd hc (by simp [SpanKind.names])
      | parens => exact ⟨'(', ')', rfl, by decide, by simpa [SpanKind.names] using hc⟩
      | brackets => exact ⟨'[', ']', rfl, by decide, by simpa [SpanKind.names] using hc⟩
    have hformula := f.avoids_delimiter (SpanKind.mem_delimiterChars hc)
    rw [← hlast, if_pos rfl, Line.text, Leaf.text, hframe]
    rcases hside with rfl | rfl
    · have honce := countFrom_lit_once (w := ['\\', c]) (x := ['\n']) (y := f.text ++ ['\\', e])
        (s := s) (b := b) (by simp) (by simp [Avoids])
        (avoids_append.2 ⟨hformula _, by simp [Avoids, hne, Ne.symm hne.2.2]⟩)
      simpa using honce
    · have honce := countFrom_lit_once (w := ['\\', c]) (x := '\n' :: '\\' :: o :: f.text) (y := [])
        (s := s) (b := b) (by simp) ⟨by simp, by simp [Ne.symm hne.1], by simp [Ne.symm hne.2.1],
          hformula _⟩ trivial
      simpa using honce

/-- There are as many openers as closers. -/
theorem count_delimiters (kind : SpanKind) {c d : Char} (hc : [c] ∈ kind.names)
    (hd : [d] ∈ kind.names) (ls : List Line) :
    (lit ['\\', c]).count (withHeading ls) = (lit ['\\', d]).count (withHeading ls) := by
  have hcount : ∀ e, [e] ∈ kind.names → (lit ['\\', e]).count (withHeading ls) =
      (ls.map fun l => if l.isMath [kind] then 1 else 0).sum := by
    intro e he
    have hleads : (lit ['\\', e]).Leads [['\\', e]] := leads_lit ['\\', e] []
    have hheading : (lit ['\\', e]).Skips none Line.heading.text (rows ls) :=
      hleads.skips fun w hw => by
        rw [List.mem_singleton.1 hw]
        exact Line.avoids_delimiter he rfl (atLineEnd_rows ls)
    rw [count_eq, withHeading, countFrom_skips (opens_lit _ _).consumes hheading,
      countFrom_rows (opens_lit _ _).consumes fun l _ b s hs => countFrom_side he b hs]
  rw [hcount c hc, hcount d hd]

end LatexPreview
