import Mathlib
import LatexPreview.Proofs.Convert.LiftParts
import LatexPreview.Proofs.Source.Grammar

/-!
# Math as TeX reads it

TeX reads a text from left to right, a backslash together with the character behind it.  Math is lifted
kind by kind instead, wherever a delimiter is found.  Both agree as long as no symbol makes up another
delimiter with what stands behind it.

* `TexPart` are the parts of a text: characters, symbols, and spans of math
* `SymbolApart`: a symbol has nothing to do with what stands behind it
* `ShownAs`: what stands for a part when some kinds of math have been lifted
* `Reads`: a pattern finds the spans of a kind, and nothing else
* `liftMath_sources`: what is lifted are the spans
-/

namespace LatexPreview

open Pattern Text

/-! ## Parts -/

/-- A part of a text, as TeX reads it. -/
inductive TexPart where
  | char (c : Char) (plain : c ≠ '\\' ∧ c ≠ '$')
  | symbol (c : Char) (escapable : c ∈ ['\\', '$', '{', '}'])
  | math (kind : SpanKind) (body : Text) (nonempty : body ≠ [])
    (plain : ∀ c ∈ body, c ≠ '\\' ∧ c ≠ '$' ∧ c ≠ '\n')

namespace TexPart

/-- The text of a part. -/
def text : TexPart → Text
  | char c _ => [c]
  | symbol c _ => ['\\', c]
  | math kind body _ _ => kind.frame.1 ++ body ++ kind.frame.2

/-- The kind of a span. -/
def kind? : TexPart → Option SpanKind
  | math kind _ _ _ => some kind
  | _ => none

/-- Is the part a span of some kind? -/
def isOf (kind : Option SpanKind) (x : TexPart) : Bool := kind.isSome && x.kind? == kind

/-- Is the part a span between dollars? -/
def hasDollars (x : TexPart) : Bool := x.kind? == some .dollars || x.kind? == some .displayDollars

end TexPart

/-- The text of parts. -/
def texText (parts : List TexPart) : Text := parts.flatMap TexPart.text

/-- The spans of some kind. -/
def spansOf (kind : Option SpanKind) (parts : List TexPart) : List Text :=
  (parts.filter (·.isOf kind)).map TexPart.text

/-- All spans. -/
def texMath (parts : List TexPart) : List Text :=
  (parts.filter (·.kind?.isSome)).map TexPart.text

/-- Every part is in some relation to the parts behind it. -/
def Throughout (R : TexPart → List TexPart → Prop) : List TexPart → Prop
  | [] => True
  | x :: parts => R x parts ∧ Throughout R parts

/-- A span between dollars does not stand directly in front of another one. -/
def DollarsApart (x : TexPart) (rest : List TexPart) : Prop :=
  x.hasDollars = true → ∀ y ∈ rest.head?, y.hasDollars = false

/-- What a backslash makes an opening delimiter of. -/
def delimiterRests : List Text :=
  ["[".toList, "(".toList] ++
    (envFrames (["align", "equation", "gather", "multline"].map (·.toList))).map (·.1.tail)

/-- A symbol has nothing to do with what stands behind it: a line break makes up no delimiter with it
and hides no dollar, and an escaped dollar makes up no double dollar. -/
def SymbolApart (x : TexPart) (rest : List TexPart) : Prop :=
  (x.text = ['\\', '\\'] → (∀ y ∈ rest.head?, y.kind? ≠ some .dollars) ∧
    ∀ w ∈ delimiterRests, ¬ w <+: texText rest) ∧
  (x.text = ['\\', '$'] → ∀ y ∈ rest.head?, y.hasDollars = false)

/-! ## Parts in a text from which some math has been lifted -/

/-- What stands for a part when some kinds of math have been lifted. -/
inductive ShownAs (lifted : List SpanKind) : TexPart × Text → Prop
  | kept (x : TexPart) (hkept : ∀ kind ∈ x.kind?, kind ∉ lifted) : ShownAs lifted (x, x.text)
  | token (x : TexPart) (t : Text) (kind : SpanKind) (hkind : x.kind? = some kind)
    (hlifted : kind ∈ lifted) (held : ∃ d source, Draft.Holds d t source) : ShownAs lifted (x, t)

/-- The text in which parts are shown. -/
def shownText (l : List (TexPart × Text)) : Text := l.flatMap Prod.snd

section Shown

variable {lifted : List SpanKind} {e : TexPart × Text} {l : List (TexPart × Text)} {x : TexPart}
  {t w : Text}

/-- A token begins with a line end or a low line, and has no delimiters in it. -/
theorem Draft.Holds.exists_cons {d : Draft} {source : Text} (h : d.Holds t source) :
    ∃ c s, t = c :: s ∧ (c = '\n' ∨ c = '_') := by
  cases h with
  | inline hk => exact ⟨'_', _, rfl, .inr rfl⟩
  | block hi hk => exact ⟨'\n', _, rfl, .inl rfl⟩

theorem TexPart.exists_cons (x : TexPart) : ∃ c s, x.text = c :: s ∧
    (c = '$' → x.hasDollars = true) := by
  cases x with
  | char c plain => exact ⟨c, [], rfl, fun h => absurd h plain.2⟩
  | symbol c escapable => exact ⟨'\\', [c], rfl, by simp⟩
  | math kind body =>
    cases kind with
    | dollars => exact ⟨'$', _, rfl, fun _ => rfl⟩
    | displayDollars => exact ⟨'$', _, rfl, fun _ => rfl⟩
    | parens => exact ⟨'\\', _, rfl, by simp⟩
    | brackets => exact ⟨'\\', _, rfl, by simp⟩

theorem shownText_cons : shownText (e :: l) = e.2 ++ shownText l := List.flatMap_cons ..

/-- Lifting math makes no other word of what stands at the front of a text. -/
theorem prefix_texText (hl : ∀ e ∈ l, ShownAs lifted e) (hw : ∀ c ∈ w, c ≠ '\n' ∧ c ≠ '_')
    (h : w <+: shownText l) : w <+: texText (l.map Prod.fst) := by
  induction l generalizing w with
  | nil => exact h
  | cons e l ih =>
    rw [shownText_cons] at h
    rw [List.map_cons, texText, List.flatMap_cons, ← texText]
    cases hl e (by simp) with
    | kept x hkept =>
      obtain ⟨r, hr⟩ := h
      rcases List.append_eq_append_iff.1 hr with ⟨v, hv, -⟩ | ⟨v, rfl, hv⟩
      · exact ⟨v ++ texText (l.map Prod.fst), by rw [← List.append_assoc, ← hv]⟩
      · refine (List.prefix_append_right_inj _).2 (ih (fun e he => hl e (by simp [he])) ?_ ⟨r, hv.symm⟩)
        exact fun c hc => hw c (by simp [hc])
    | token x t kind hkind hlifted held =>
      obtain ⟨d, source, held⟩ := held
      obtain ⟨c, s, rfl, hc⟩ := held.exists_cons
      cases w with
      | nil => exact List.nil_prefix
      | cons d w =>
        obtain rfl := (List.cons_prefix_cons.1 h).1
        rcases hc with hc | hc
        · exact absurd hc (hw d (by simp)).1
        · exact absurd hc (hw d (by simp)).2

/-- A dollar at the front of a text is that of a span. -/
theorem hasDollars_of_prefix (hl : ∀ e ∈ l, ShownAs lifted e) (h : ['$'] <+: shownText l) :
    ∃ y ∈ (l.map Prod.fst).head?, y.hasDollars = true := by
  cases l with
  | nil => simp [shownText] at h
  | cons e l =>
    refine ⟨e.1, rfl, ?_⟩
    rw [shownText_cons] at h
    cases hl e (by simp) with
    | kept x hkept =>
      obtain ⟨c, s, hs, hdollar⟩ := x.exists_cons
      rw [hs] at h
      exact hdollar (List.cons_prefix_cons.1 h).1.symm
    | token x t kind hkind hlifted held =>
      obtain ⟨d, source, held⟩ := held
      obtain ⟨c, s, rfl, hc⟩ := held.exists_cons
      obtain rfl := (List.cons_prefix_cons.1 h).1
      simp at hc

/-! ## Where no delimiter opens -/

theorem delimiterRests_cases (hw : w ∈ delimiterRests) :
    (w = ['['] ∨ w = ['('] ∨ ∃ v, w = 'b' :: v) ∧ ∀ c ∈ w, c ≠ '\n' ∧ c ≠ '_' := by
  have hall : delimiterRests.all fun w =>
      (w == ['['] || w == ['('] || w.head? == some 'b') && w.all fun c => c != '\n' && c != '_' := by
    decide
  have hone := List.all_eq_true.1 hall w hw
  simp only [Bool.and_eq_true, Bool.or_eq_true, beq_iff_eq, List.all_eq_true, bne_iff_ne, ne_eq,
    or_assoc, List.head?_eq_some_iff] at hone
  exact hone

/-- What a delimiter has behind its backslash is told from other texts by its first character. -/
theorem not_prefix_of_mem_delimiterRests (hw : w ∈ delimiterRests) {c : Char} {s : Text}
    (hname : c ≠ 'b') (hbracket : w = ['['] → c ≠ '[') (hparen : w = ['('] → c ≠ '(') :
    ¬ w <+: c :: s := by
  intro h
  rcases (delimiterRests_cases hw).1 with hcase | hcase | ⟨v, hcase⟩
  · rw [hcase] at h
    exact hbracket hcase (List.cons_prefix_cons.1 h).1.symm
  · rw [hcase] at h
    exact hparen hcase (List.cons_prefix_cons.1 h).1.symm
  · rw [hcase] at h
    exact hname (List.cons_prefix_cons.1 h).1.symm

/-- The two characters of a delimiter or a symbol open nothing but themselves. -/
theorem avoids_escaped {c : Char} {s : Text} (hfirst : ¬ w <+: c :: s)
    (hsecond : c = '\\' → ¬ w <+: s) : Avoids ('\\' :: w) ['\\', c] s :=
  ⟨fun h => hfirst (List.cons_prefix_cons.1 h).2,
    fun h => hsecond (List.cons_prefix_cons.1 h).1.symm (List.cons_prefix_cons.1 h).2, trivial⟩

/-- In a span without backslashes, no delimiter opens but that of its kind. -/
theorem SpanKind.avoids_backslash (kind : SpanKind) {body s : Text} (hw : w ∈ delimiterRests)
    (hbody : '\\' ∉ body) (hkind : kind.frame.1 ≠ '\\' :: w) :
    Avoids ('\\' :: w) (kind.frame.1 ++ body ++ kind.frame.2) s := by
  have hescaped : ∀ {c : Char} {s : Text}, c ≠ '\\' → c ≠ 'b' → (w = ['['] → c ≠ '[') →
      (w = ['('] → c ≠ '(') → Avoids ('\\' :: w) ['\\', c] s := fun hc hb hbracket hparen =>
    avoids_escaped (not_prefix_of_mem_delimiterRests hw hb hbracket hparen) fun h => absurd h hc
  refine avoids_append.2 ⟨avoids_append.2 ⟨?_, avoids_of_not_mem hbody⟩, ?_⟩
  · cases kind with
    | dollars | displayDollars => exact avoids_of_not_mem (by decide)
    | parens =>
      exact hescaped (by decide) (by decide) (fun _ => by decide) fun h => absurd (by rw [h]; rfl) hkind
    | brackets =>
      exact hescaped (by decide) (by decide) (fun h => absurd (by rw [h]; rfl) hkind) fun _ => by decide
  · cases kind with
    | dollars | displayDollars => exact avoids_of_not_mem (by decide)
    | parens | brackets => exact hescaped (by decide) (by decide) (fun _ => by decide) fun _ => by decide

/-- No delimiter that begins with a backslash opens in a part but a span of its kind. -/
theorem avoids_backslash (he : ShownAs lifted e) (hl : ∀ e ∈ l, ShownAs lifted e)
    (hsymbol : SymbolApart e.1 (l.map Prod.fst)) (hw : w ∈ delimiterRests)
    (hkind : ∀ kind ∈ e.1.kind?, kind ∉ lifted → kind.frame.1 ≠ '\\' :: w) :
    Avoids ('\\' :: w) e.2 (shownText l) := by
  cases he with
  | token x t kind hk hlifted held =>
    obtain ⟨d, source, held⟩ := held
    exact avoids_of_not_mem (held.not_mem (by decide))
  | kept x hkept =>
    cases x with
    | char c plain =>
      have hnone : '\\' ∉ [c] := fun h => plain.1 (List.mem_singleton.1 h).symm
      exact avoids_of_not_mem hnone
    | symbol c escapable =>
      have hne : c ≠ 'b' ∧ c ≠ '[' ∧ c ≠ '(' := by
        simp only [List.mem_cons, List.not_mem_nil, or_false] at escapable
        rcases escapable with rfl | rfl | rfl | rfl <;> decide
      refine avoids_escaped
        (not_prefix_of_mem_delimiterRests hw hne.1 (fun _ => hne.2.1) fun _ => hne.2.2) ?_
      rintro rfl h
      exact (hsymbol.1 rfl).2 w hw (prefix_texText hl (delimiterRests_cases hw).2 h)
    | math kind body nonempty plain =>
      have hbody : '\\' ∉ body := fun h => (plain _ h).1 rfl
      exact kind.avoids_backslash hw hbody (hkind kind rfl (hkept kind rfl))

/-- No double dollar opens in a part but a displayed span. -/
theorem avoids_twoDollars (he : ShownAs lifted e) (hl : ∀ e ∈ l, ShownAs lifted e)
    (hdollars : DollarsApart e.1 (l.map Prod.fst)) (hsymbol : SymbolApart e.1 (l.map Prod.fst))
    (hkind : e.1.kind? = some .displayDollars → .displayDollars ∈ lifted) :
    Avoids ['$', '$'] e.2 (shownText l) := by
  have hlast : (∀ y ∈ (l.map Prod.fst).head?, y.hasDollars = false) → ¬ ['$'] <+: shownText l := by
    intro hnone h
    obtain ⟨y, hy, hdollar⟩ := hasDollars_of_prefix hl h
    rw [hnone y hy] at hdollar
    simp at hdollar
  cases he with
  | token x t kind hk hlifted held =>
    obtain ⟨d, source, held⟩ := held
    exact avoids_of_not_mem (held.not_mem (by decide))
  | kept x hkept =>
    cases x with
    | char c plain =>
      have hnone : '$' ∉ [c] := fun h => plain.2 (List.mem_singleton.1 h).symm
      exact avoids_of_not_mem hnone
    | symbol c escapable =>
      refine ⟨fun h => ?_, fun h => ?_, trivial⟩
      · exact absurd (List.cons_prefix_cons.1 h).1 (by decide)
      · obtain ⟨hc, hrest⟩ := List.cons_prefix_cons.1 h
        exact hlast (hsymbol.2 (by rw [hc]; rfl)) hrest
    | math kind body nonempty plain =>
      have hbody : ∀ s, Avoids ['$', '$'] body s := fun s =>
        avoids_of_not_mem fun h => (plain _ h).2.1 rfl
      cases kind with
      | dollars =>
        refine avoids_append.2
          ⟨avoids_append.2 ⟨⟨fun h => ?_, trivial⟩, hbody _⟩, ⟨fun h => ?_, trivial⟩⟩
        · obtain ⟨c, body, rfl⟩ := List.exists_cons_of_ne_nil nonempty
          have hsecond := (List.cons_prefix_cons.1 (List.cons_prefix_cons.1 h).2).1
          exact (plain c (by simp)).2.1 hsecond.symm
        · exact hlast (hdollars rfl) (List.cons_prefix_cons.1 h).2
      | displayDollars => exact absurd (hkind rfl) (hkept _ rfl)
      | parens | brackets =>
        exact avoids_append.2 ⟨avoids_append.2 ⟨avoids_of_not_mem (by decide), hbody _⟩,
          avoids_of_not_mem (by decide)⟩

end Shown

/-! ## Cuts of parts -/

/-- A text of parts, cut at the spans of some kind. -/
def cutParts (kind : Option SpanKind) : List (TexPart × Text) → Sliced Char
  | [] => .tail []
  | e :: l => if e.1.isOf kind then .slice [] e.2 (cutParts kind l) else (cutParts kind l).prepend e.2

/-- A pattern finds the spans of some kind, and nothing else, in texts from which some kinds of math
have been lifted. -/
structure Reads (p : Pattern) (kind : Option SpanKind) (lifted : List SpanKind) : Prop where
  consumes : p.Consumes
  skips : ∀ (e : TexPart × Text) (l : List (TexPart × Text)) (b : Option Char), ShownAs lifted e →
    (∀ e ∈ l, ShownAs lifted e) → DollarsApart e.1 (l.map Prod.fst) → SymbolApart e.1 (l.map Prod.fst) →
    e.1.isOf kind = false → p.Skips b e.2 (shownText l)
  hit : ∀ (e : TexPart × Text) (l : List (TexPart × Text)) (b : Option Char), ShownAs lifted e →
    (b = some '\\' → e.1.kind? ≠ some .dollars) → e.1.isOf kind = true →
    ∃ stop, p.at? b (e.2 ++ shownText l) = some stop ∧ stop.rest = shownText l

section Reads

variable {p : Pattern} {kind : Option SpanKind} {lifted : List SpanKind}

theorem ShownAs.ne_nil {e : TexPart × Text} (he : ShownAs lifted e) : e.2 ≠ [] := by
  cases he with
  | kept x hkept =>
    obtain ⟨c, s, hs, -⟩ := x.exists_cons
    simp [hs]
  | token x t kind hkind hlifted held =>
    obtain ⟨d, source, held⟩ := held
    obtain ⟨c, s, rfl, -⟩ := held.exists_cons
    simp

/-- Only a line break has a backslash at its end. -/
theorem ShownAs.getLast {e : TexPart × Text} (he : ShownAs lifted e) (h : e.2.getLast? = some '\\') :
    e.1.text = ['\\', '\\'] := by
  cases he with
  | kept x hkept =>
    cases x with
    | char c plain => exact absurd (Option.some.inj h) plain.1
    | symbol c escapable =>
      obtain rfl : c = '\\' := Option.some.inj h
      rfl
    | math kind body nonempty plain =>
      have hlast : ∀ w : Text, w ≠ [] → (kind.frame.1 ++ body ++ w).getLast? = w.getLast? :=
        fun w hw => List.getLast?_append_of_ne_nil _ hw
      cases kind with
      | dollars | displayDollars | parens | brackets =>
        exact absurd ((hlast _ (by simp [SpanKind.frame])).symm.trans h) (by decide)
  | token x t kind hkind hlifted held =>
    obtain ⟨d, source, held⟩ := held
    exact absurd (List.mem_of_getLast? h) (held.not_mem (by decide))

theorem Reads.slicedFrom (hp : Reads p kind lifted) {l : List (TexPart × Text)}
    (hl : ∀ e ∈ l, ShownAs lifted e) (hdollars : Throughout DollarsApart (l.map Prod.fst))
    (hsymbols : Throughout SymbolApart (l.map Prod.fst)) {b : Option Char}
    (hb : b = some '\\' → ∀ x ∈ (l.map Prod.fst).head?, x.kind? ≠ some .dollars) :
    p.slicedFrom b (shownText l) = cutParts kind l := by
  induction l generalizing b with
  | nil => exact slicedFrom_nil hp.consumes
  | cons e l ih =>
    have he := hl e (by simp)
    have hl' : ∀ e ∈ l, ShownAs lifted e := fun e he => hl e (by simp [he])
    have hnext : e.2.getLast?.or b = some '\\' →
        ∀ x ∈ (l.map Prod.fst).head?, x.kind? ≠ some .dollars := by
      intro hlast
      refine (hsymbols.1.1 (he.getLast ?_)).1
      rwa [List.getLast?_eq_some_getLast he.ne_nil] at hlast ⊢
    have hlater := ih hl' hdollars.2 hsymbols.2 hnext
    rw [shownText_cons, cutParts]
    cases hof : e.1.isOf kind with
    | false =>
      rw [slicedFrom_skips hp.consumes (hp.skips e l b he hl' hdollars.1 hsymbols.1 hof), hlater]
      rfl
    | true =>
      obtain ⟨stop, hstop, hrest⟩ := hp.hit e l b he (fun h => hb h e.1 rfl) hof
      rw [slicedFrom_hit hp.consumes he.ne_nil hstop hrest, hlater]
      rfl

/-! ## The patterns of math -/

theorem TexPart.isOf_some {kind : SpanKind} {x : TexPart} :
    x.isOf (some kind) = true ↔ x.kind? = some kind := by simp [isOf]

/-- A span that has not been lifted is in the text. -/
theorem ShownAs.exists_body {kind : SpanKind} {e : TexPart × Text} (he : ShownAs lifted e)
    (hkind : e.1.kind? = some kind) (hlifted : kind ∉ lifted) :
    ∃ body : Text, e.2 = kind.frame.1 ++ body ++ kind.frame.2 ∧ body ≠ [] ∧
      ∀ c ∈ body, c ≠ '\\' ∧ c ≠ '$' ∧ c ≠ '\n' := by
  cases he with
  | kept x hkept =>
    cases x with
    | math kind' body nonempty plain =>
      obtain rfl := Option.some.inj hkind
      exact ⟨body, rfl, nonempty, plain⟩
    | char => simp [TexPart.kind?] at hkind
    | symbol => simp [TexPart.kind?] at hkind
  | token x t kind' hkind' hlifted' held =>
    obtain rfl := Option.some.inj (hkind.symm.trans hkind')
    exact absurd hlifted' hlifted

/-- Spans with two delimiters are found, if their opening delimiter stands nowhere else. -/
theorem reads_spans {kind : SpanKind} (hp : p.Spans [kind.frame]) (hconsumes : p.Consumes)
    (hlifted : kind ∉ lifted)
    (havoids : ∀ (e : TexPart × Text) (l : List (TexPart × Text)), ShownAs lifted e →
      (∀ e ∈ l, ShownAs lifted e) → DollarsApart e.1 (l.map Prod.fst) →
      SymbolApart e.1 (l.map Prod.fst) → e.1.kind? ≠ some kind →
      Avoids kind.frame.1 e.2 (shownText l)) :
    Reads p (some kind) lifted where
  consumes := hconsumes
  skips e l b he hl hdollars hsymbol hof := by
    refine hp.skips (fun f hf => ?_) b
    rw [List.mem_singleton.1 hf]
    refine havoids e l he hl hdollars hsymbol fun hkind => ?_
    rw [TexPart.isOf_some.2 hkind] at hof
    simp at hof
  hit e l b he _ hof := by
    obtain ⟨body, hbody, -, hplain⟩ := he.exists_body (TexPart.isOf_some.1 hof) hlifted
    have havoid : Avoids kind.frame.2 body (kind.frame.2 ++ shownText l) := by
      cases kind with
      | dollars | displayDollars => exact avoids_of_not_mem fun h => (hplain _ h).2.1 rfl
      | parens | brackets => exact avoids_of_not_mem fun h => (hplain _ h).1 rfl
    refine Option.map_eq_some_iff.1 ((hp b _).trans ?_)
    rw [hbody, behindFrame, List.findSome?_singleton, List.append_assoc, List.append_assoc,
      dropFront?_append, Option.bind_some, find?_append havoid]
    rfl

theorem reads_displayDollars : Reads displayDollars (some .displayDollars) [] := by
  refine reads_spans spans_displayDollars opens_displayDollars.consumes (by simp) ?_
  intro e l he hl hdollars hsymbol hkind
  exact avoids_twoDollars he hl hdollars hsymbol fun h => absurd h hkind

theorem reads_displayBrackets : Reads displayBrackets (some .brackets) [.displayDollars] := by
  refine reads_spans spans_displayBrackets opens_displayBrackets.consumes (by decide) ?_
  intro e l he hl hdollars hsymbol hkind
  refine avoids_backslash he hl hsymbol (by decide) fun kind hk _ hframe => hkind ?_
  cases kind with
  | brackets => exact hk
  | dollars | displayDollars | parens => exact absurd hframe (by decide)

theorem reads_inlineParens :
    Reads inlineParens (some .parens) [.brackets, .displayDollars] := by
  refine reads_spans spans_inlineParens opens_inlineParens.consumes (by decide) ?_
  intro e l he hl hdollars hsymbol hkind
  refine avoids_backslash he hl hsymbol (by decide) fun kind hk _ hframe => hkind ?_
  cases kind with
  | parens => exact hk
  | dollars | displayDollars | brackets => exact absurd hframe (by decide)

theorem reads_displayEnvironment : Reads displayEnvironment none [.brackets, .displayDollars] where
  consumes := (opens_mathEnvironment _).consumes
  skips e l b he hl hdollars hsymbol hof := by
    refine (spans_mathEnvironment (by simp)).skips (fun f hf => ?_) b
    have hopen : f.1 = '\\' :: f.1.tail := by
      obtain ⟨name, rfl, -⟩ := exists_envFrame hf
      rfl
    have hrest : f.1.tail ∈ delimiterRests := by
      refine List.mem_append_right _ (List.mem_map.2 ⟨f, ?_, rfl⟩)
      exact hf
    rw [hopen]
    refine avoids_backslash he hl hsymbol hrest fun kind hk _ hframe => ?_
    rw [← hopen] at hframe
    obtain ⟨name, rfl, -⟩ := exists_envFrame hf
    cases kind with
    | dollars | displayDollars | parens | brackets =>
      exact absurd (congrArg (·[1]?) hframe) (by simp [SpanKind.frame, envFrame, beginTag])
  hit e l b he hb hof := by simp [TexPart.isOf] at hof

theorem reads_inlineDollars :
    Reads inlineDollars (some .dollars) [.parens, .brackets, .displayDollars] where
  consumes := opens_inlineDollars.consumes
  skips e l b he hl hdollars hsymbol hof := by
    have hhidden : ∀ s, inlineDollars.at? (some '\\') s = none := fun s =>
      Option.map_eq_none_iff.1 (at?_inlineDollars (some '\\') s)
    cases he with
    | token x t kind hk hlifted held =>
      obtain ⟨d, source, held⟩ := held
      exact opens_inlineDollars.skips (held.not_mem (by decide)) _
    | kept x hkept =>
      cases x with
      | char c plain =>
        have hnone : '$' ∉ [c] := fun h => plain.2 (List.mem_singleton.1 h).symm
        exact opens_inlineDollars.skips hnone _
      | symbol c escapable =>
        exact ⟨(opens_inlineDollars.skips (x := ['\\']) (by decide) _).1, hhidden _, trivial⟩
      | math kind body nonempty plain =>
        have hbody : '$' ∉ body := fun h => (plain _ h).2.1 rfl
        cases kind with
        | dollars => simp [TexPart.isOf, TexPart.kind?] at hof
        | displayDollars => exact absurd (by decide) (hkept _ rfl)
        | parens | brackets =>
          refine opens_inlineDollars.skips (fun h => ?_) _
          simp [TexPart.text, SpanKind.frame, hbody] at h
  hit e l b he hb hof := by
    obtain ⟨body, hbody, hne, hplain⟩ := he.exists_body (TexPart.isOf_some.1 hof) (by decide)
    have hb' : b ≠ some '\\' := fun h => hb h (TexPart.isOf_some.1 hof)
    have havoid : Avoids ['$'] body (['$'] ++ shownText l) :=
      avoids_of_not_mem fun h => (hplain _ h).2.1 rfl
    have hok : (!body.isEmpty && body.all (fun c => !"$\n".toList.contains c) &&
        body.getLast? != some '\\') = true := by
      simp only [Bool.and_eq_true, Bool.not_eq_true', List.isEmpty_eq_false_iff, List.all_eq_true,
        bne_iff_ne, ne_eq]
      refine ⟨⟨hne, fun c hc => ?_⟩, fun h => (hplain _ (List.mem_of_getLast? h)).1 rfl⟩
      simp [(hplain c hc).2.1, (hplain c hc).2.2]
    refine Option.map_eq_some_iff.1 ((at?_inlineDollars b _).trans ?_)
    rw [behindDollars, if_neg hb', hbody, List.append_assoc, List.append_assoc]
    show (dropFront? ['$'] (['$'] ++ (body ++ (['$'] ++ shownText l)))).bind _ = _
    rw [dropFront?_append, Option.bind_some, find?_append havoid, Option.bind_some, if_pos hok]

/-! ## Passes -/

theorem slices_cutParts (hkind : ∀ k ∈ kind, k ∉ lifted) {l : List (TexPart × Text)}
    (hl : ∀ e ∈ l, ShownAs lifted e) :
    (cutParts kind l).slices = spansOf kind (l.map Prod.fst) := by
  induction l with
  | nil => rfl
  | cons e l ih =>
    have hlater := ih fun e he => hl e (by simp [he])
    rw [cutParts, List.map_cons, spansOf, List.filter_cons]
    cases hof : e.1.isOf kind with
    | false =>
      rw [if_neg (by simp), if_neg (by simp), Sliced.slices_prepend, hlater]
      rfl
    | true =>
      have hshown : e.2 = e.1.text := by
        cases hl e (by simp) with
        | kept x hkept => rfl
        | token x t k hk hlifted held =>
          have hsame : kind = some k := by
            simp only [TexPart.isOf, Bool.and_eq_true, beq_iff_eq] at hof
            exact hof.2.symm.trans hk
          exact absurd hlifted (hkind k hsame)
      rw [if_pos rfl, if_pos rfl, Sliced.slices, hlater, hshown]
      rfl

/-- When spans are replaced by tokens, the parts are shown with one more kind lifted. -/
theorem exists_refill {l : List (TexPart × Text)} (hl : ∀ e ∈ l, ShownAs lifted e) {tokens : List Text}
    (htokens : ∀ t ∈ tokens, ∃ d source, Draft.Holds d t source)
    (hlength : tokens.length = (cutParts kind l).slices.length) :
    ∃ l' : List (TexPart × Text), l'.map Prod.fst = l.map Prod.fst ∧
      (cutParts kind l).refill tokens = shownText l' ∧ ∀ e ∈ l', ShownAs (kind.toList ++ lifted) e := by
  induction l generalizing tokens with
  | nil => exact ⟨[], rfl, rfl, by simp⟩
  | cons e l ih =>
    have hl' : ∀ e ∈ l, ShownAs lifted e := fun e he => hl e (by simp [he])
    rw [cutParts] at hlength ⊢
    cases hof : e.1.isOf kind with
    | false =>
      rw [hof, if_neg (by simp), Sliced.slices_prepend] at hlength
      obtain ⟨l', hfst, htext, hshows⟩ := ih hl' htokens hlength
      refine ⟨e :: l', by simp [hfst], ?_, ?_⟩
      · rw [if_neg (by simp), Sliced.refill_prepend, htext, shownText_cons]
      · refine List.forall_mem_cons.2 ⟨?_, hshows⟩
        cases hl e (by simp) with
        | kept x hkept =>
          refine .kept x fun k hk hmem => ?_
          rcases List.mem_append.1 hmem with hmem | hmem
          · have hsame : kind = some k := by simpa using hmem
            rw [hsame, TexPart.isOf_some.2 hk] at hof
            simp at hof
          · exact hkept k hk hmem
        | token x t k hk hlifted held => exact .token x t k hk (by simp [hlifted]) held
    | true =>
      rw [hof, if_pos rfl, Sliced.slices] at hlength
      cases tokens with
      | nil => simp at hlength
      | cons t tokens =>
        have hrest : ∀ t ∈ tokens, ∃ d source, Draft.Holds d t source :=
          fun t ht => htokens t (by simp [ht])
        obtain ⟨l', hfst, htext, hshows⟩ := ih hl' hrest (by simpa using hlength)
        refine ⟨(e.1, t) :: l', by simp [hfst], ?_, ?_⟩
        · rw [if_pos rfl, Sliced.refill, htext, shownText_cons]
          rfl
        · refine List.forall_mem_cons.2 ⟨?_, hshows⟩
          simp only [TexPart.isOf, Bool.and_eq_true, beq_iff_eq] at hof
          obtain ⟨k, hk⟩ := Option.isSome_iff_exists.1 hof.1
          exact .token e.1 t k (hof.2.trans hk) (by simp [hk]) (htokens t (by simp))

/-- What is put in place of spans are tokens. -/
theorem holds_storeSpans {d : Draft} (hmath : d.math.name = Draft.mathName)
    (hblocks : d.blocks.name = Draft.blockName) (place : MathPlace) (spans : List Text) :
    (∀ t ∈ ((storeSpans place spans).run d).1, ∃ d source, Draft.Holds d t source) ∧
      ((storeSpans place spans).run d).2.math.name = Draft.mathName ∧
      ((storeSpans place spans).run d).2.blocks.name = Draft.blockName := by
  induction spans generalizing d with
  | nil => exact ⟨fun t ht => absurd ht List.not_mem_nil, hmath, hblocks⟩
  | cons span spans ih =>
    have hrun : (storeSpans place (span :: spans)).run d =
        (((liftSpan place span).run d).1 ::
          ((storeSpans place spans).run ((liftSpan place span).run d).2).1,
          ((storeSpans place spans).run ((liftSpan place span).run d).2).2) := by
      rw [storeSpans, List.mapM_cons]
      rfl
    obtain ⟨hlater, hnames⟩ := ih (d := ((liftSpan place span).run d).2)
      (by rw [liftSpan_math, hmath]) (by rw [liftSpan_blockName, hblocks])
    rw [hrun]
    exact ⟨List.forall_mem_cons.2 ⟨⟨_, span, liftSpan_holds hmath hblocks place span⟩, hlater⟩, hnames⟩

/-- A text of parts from which some kinds of math have been lifted. -/
structure LiftState (parts : List TexPart) (lifted : List SpanKind) (d : Draft) (s : Text) : Prop where
  mathName : d.math.name = Draft.mathName
  blockName : d.blocks.name = Draft.blockName
  shown : ∃ l : List (TexPart × Text), l.map Prod.fst = parts ∧ s = shownText l ∧
    ∀ e ∈ l, ShownAs lifted e

/-- Lifting one kind of math lifts its spans. -/
theorem LiftState.pass {parts : List TexPart} {d : Draft} {s : Text}
    (h : LiftState parts lifted d s) (place : MathPlace) (hp : Reads p kind lifted)
    (hkind : ∀ k ∈ kind, k ∉ lifted)
    (hdollars : Throughout DollarsApart parts) (hsymbols : Throughout SymbolApart parts) :
    LiftState parts (kind.toList ++ lifted) ((liftPass (p, place) s).run d).2
        ((liftPass (p, place) s).run d).1 ∧
      ((liftPass (p, place) s).run d).2.math.contents = d.math.contents ++ spansOf kind parts := by
  obtain ⟨l, rfl, rfl, hl⟩ := h.shown
  have hcut : p.slicedFrom none (shownText l) = cutParts kind l :=
    hp.slicedFrom hl hdollars hsymbols (by simp)
  have hslices := slices_cutParts hkind hl
  obtain ⟨htokens, hmath, hblocks⟩ :=
    holds_storeSpans h.mathName h.blockName place (cutParts kind l).slices
  obtain ⟨l', hfst, htext, hshows⟩ := exists_refill hl htokens (length_storeSpans place _ d)
  rw [liftPass_run, liftFrom_run, hcut]
  refine ⟨⟨hmath, hblocks, l', hfst, htext, hshows⟩, ?_⟩
  rw [← hslices]
  exact contents_storeSpans place _ d

/-- The patterns find the spans of some kinds, one kind after the other. -/
def ReadsInTurn : List (Pattern × MathPlace) → List (Option SpanKind) → List SpanKind → Prop
  | [], [], _ => True
  | (p, _) :: patterns, kind :: kinds, lifted => Reads p kind lifted ∧ (∀ k ∈ kind, k ∉ lifted) ∧
      ReadsInTurn patterns kinds (kind.toList ++ lifted)
  | _, _, _ => False

/-- Lifting some kinds of math lifts their spans. -/
theorem LiftState.passes {patterns : List (Pattern × MathPlace)} {kinds : List (Option SpanKind)}
    {parts : List TexPart} {d : Draft} {s : Text} (h : LiftState parts lifted d s)
    (hp : ReadsInTurn patterns kinds lifted) (hdollars : Throughout DollarsApart parts)
    (hsymbols : Throughout SymbolApart parts) :
    LiftState parts (kinds.foldl (fun lifted kind => kind.toList ++ lifted) lifted)
        ((liftAll patterns s).run d).2 ((liftAll patterns s).run d).1 ∧
      ((liftAll patterns s).run d).2.math.contents =
        d.math.contents ++ kinds.flatMap (spansOf · parts) := by
  induction patterns generalizing kinds lifted d s with
  | nil =>
    cases kinds with
    | nil => exact ⟨h, (List.append_nil _).symm⟩
    | cons kind kinds => exact hp.elim
  | cons pattern patterns ih =>
    cases kinds with
    | nil => exact hp.elim
    | cons kind kinds =>
      obtain ⟨hfirst, hkind, hlater⟩ := hp
      obtain ⟨hnext, hcontents⟩ := h.pass pattern.2 hfirst hkind hdollars hsymbols
      obtain ⟨hend, hall⟩ := ih hnext hlater
      refine ⟨hend, hall.trans ?_⟩
      rw [hcontents, List.flatMap_cons, List.append_assoc]

end Reads

/-! ## All math -/

/-- The kinds of spans that are lifted, in their order. No part is an environment. -/
def texKinds : List (Option SpanKind) :=
  [some .displayDollars, some .brackets, none, some .parens, some .dollars]

theorem readsInTurn_mathSpanKinds : ReadsInTurn mathSpanKinds texKinds [] :=
  ⟨reads_displayDollars, by simp, reads_displayBrackets, by simp, reads_displayEnvironment, by simp,
    reads_inlineParens, by simp, reads_inlineDollars, by simp, trivial⟩

theorem texMath_perm (parts : List TexPart) :
    (texKinds.flatMap (spansOf · parts)).Perm (texMath parts) := by
  have hnone : ∀ parts, spansOf none parts = [] := by simp [spansOf, TexPart.isOf]
  have hkinds : ∀ parts, texKinds.flatMap (spansOf · parts) =
      spansOf (some .displayDollars) parts ++ (spansOf (some .brackets) parts ++
        (spansOf (some .parens) parts ++ spansOf (some .dollars) parts)) := by
    intro parts
    simp [texKinds, hnone]
  induction parts with
  | nil => exact .refl _
  | cons x parts ih =>
    have hcons : ∀ kind, spansOf kind (x :: parts) =
        if x.isOf kind then x.text :: spansOf kind parts else spansOf kind parts := by
      intro kind
      rw [spansOf, List.filter_cons]
      split <;> rfl
    have hmath : texMath (x :: parts) =
        if x.kind?.isSome then x.text :: texMath parts else texMath parts := by
      rw [texMath, List.filter_cons]
      split <;> rfl
    rw [hkinds] at ih ⊢
    simp only [hcons, hmath]
    cases x with
    | char => exact ih
    | symbol => exact ih
    | math kind body nonempty plain =>
      refine List.Perm.trans ?_ (ih.cons _)
      cases kind with
      | displayDollars => exact .refl _
      | brackets => exact List.perm_middle
      | parens => exact (List.perm_middle.append_left _).trans List.perm_middle
      | dollars =>
        exact ((List.perm_middle.append_left _).trans List.perm_middle |>.append_left _).trans
          List.perm_middle

/-- If no symbol has anything to do with what stands behind it, what is lifted out of a text are the
spans of math in it, each once, and everything else is left as it is. -/
theorem liftMath_sources (parts : List TexPart) (hdollars : Throughout DollarsApart parts)
    (hsymbols : Throughout SymbolApart parts) :
    let lifted := (liftMath (texText parts)).run .fresh
    lifted.2.math.contents.Perm (texMath parts) ∧
      ∃ l : List (TexPart × Text), l.map Prod.fst = parts ∧ lifted.1 = shownText l ∧
        ∀ e ∈ l, ShownAs [.dollars, .parens, .brackets, .displayDollars] e := by
  have hstart : LiftState parts [] .fresh (texText parts) := by
    refine ⟨rfl, rfl, parts.map fun x => (x, x.text), ?_, ?_, ?_⟩
    · rw [List.map_map]
      exact List.map_id parts
    · rw [shownText, List.flatMap_map]
      rfl
    · intro e he
      obtain ⟨x, -, rfl⟩ := List.mem_map.1 he
      exact .kept x (by simp)
  obtain ⟨hend, hcontents⟩ := hstart.passes readsInTurn_mathSpanKinds hdollars hsymbols
  have hlift : liftMath (texText parts) = liftAll mathSpanKinds (texText parts) := rfl
  have hfresh : Draft.fresh.math.contents = [] := rfl
  rw [hfresh, List.nil_append] at hcontents
  rw [hlift]
  refine ⟨?_, hend.shown⟩
  rw [hcontents]
  exact texMath_perm parts

/-- A line break in front of a letter has nothing to do with the math around it. -/
theorem liftMath_sources_break :
    let parts : List TexPart := [.math .dollars ['x'] (by simp) (by simp), .symbol '\\' (by simp),
      .char 'y' (by simp), .math .brackets ['z'] (by simp) (by simp)]
    Throughout DollarsApart parts ∧ Throughout SymbolApart parts ∧
      ((liftMath "$x$\\\\y\\[z\\]".toList).run .fresh).2.math.contents.Perm
        ["$x$".toList, "\\[z\\]".toList] := by
  intro parts
  have hdollars : Throughout DollarsApart parts := by
    simp [parts, Throughout, DollarsApart, TexPart.hasDollars, TexPart.kind?]
  have hrest : ∀ w ∈ delimiterRests, ¬ w <+: "y\\[z\\]".toList := by decide
  have hsymbols : Throughout SymbolApart parts := by
    refine ⟨⟨by simp [TexPart.text, SpanKind.frame], by simp [TexPart.text, SpanKind.frame]⟩,
      ⟨fun _ => ⟨by simp [TexPart.kind?], hrest⟩, by simp [TexPart.text]⟩,
      ⟨by simp [TexPart.text], by simp [TexPart.text]⟩,
      ⟨by simp [TexPart.text, SpanKind.frame], by simp [TexPart.text, SpanKind.frame]⟩, trivial⟩
  have htext : texText parts = "$x$\\\\y\\[z\\]".toList := by decide +kernel
  have hspans : texMath parts = ["$x$".toList, "\\[z\\]".toList] := by decide +kernel
  rw [← htext, ← hspans]
  exact ⟨hdollars, hsymbols, (liftMath_sources parts hdollars hsymbols).1⟩

/-- The space behind a line break is taken for the beginning of math. -/
theorem space_behind_break_opens_math : ¬ ∀ parts : List TexPart, Throughout DollarsApart parts →
    ((liftMath (texText parts)).run .fresh).2.math.contents.Perm (texMath parts) := by
  intro h
  let parts : List TexPart := [.symbol '\\' (by simp), .char '[' (by simp), .char 'x' (by simp),
    .char ']' (by simp), .math .brackets ['y'] (by simp) (by simp)]
  have hperm := h parts (by
    simp [parts, Throughout, DollarsApart, TexPart.hasDollars, TexPart.kind?])
  have hsources : ((liftMath (texText parts)).run .fresh).2.math.contents =
      ["\\[x]\\[y\\]".toList] := by decide +kernel
  have hspans : texMath parts = ["\\[y\\]".toList] := by decide +kernel
  rw [hsources, hspans, List.perm_singleton] at hperm
  exact absurd hperm (by decide)

end LatexPreview
