import Mathlib
import LatexPreview.Convert.MathLift
import LatexPreview.Proofs.Source.Spans
import LatexPreview.Proofs.Text.Passage

/-!
# Plain bodies

The body of a math span is plain if it holds no delimiter of math.  Where plain bodies stand
between delimiters, no delimiter starts, ends or goes on in one of them; so a search for spans
takes the same course whatever plain bodies are put in.

* `PlainBody` are the bodies, `Framed` the passages in which marks stand between delimiters
* `Delimiter`: the words that neither occur in a plain body nor reach into it
* `dropFront?_fill`, `find?_fill`: looking for such a word in a passage
* `Uniform`: the patterns whose matches are found by looking at the passage only
* `uniform_of_mem_mathSpanKinds`: the patterns of all math spans are such
* `Uniform.exists_cut`: all texts of a passage are cut in the same way
-/

namespace LatexPreview

open Passage Pattern

/-! ## Bodies -/

/-- The words that a plain body does not hold. -/
def delimiterWords : List Text :=
  ["\\(", "\\)", "\\[", "\\]", "\\begin", "\\end"].map (·.toList)

/-- A text in a line that holds no delimiter of math, and at whose end none can start. -/
structure PlainBody (s : Text) : Prop where
  nonempty : s ≠ []
  oneLine : '\n' ∉ s
  noDollar : '$' ∉ s
  noWord : ∀ w ∈ delimiterWords, ¬ w <:+: s
  last : s.getLast? ≠ some '\\'

instance (s : Text) : Decidable (PlainBody s) :=
  decidable_of_iff (s ≠ [] ∧ '\n' ∉ s ∧ '$' ∉ s ∧ (∀ w ∈ delimiterWords, ¬ w <:+: s) ∧
      s.getLast? ≠ some '\\')
    ⟨fun ⟨h₁, h₂, h₃, h₄, h₅⟩ => ⟨h₁, h₂, h₃, h₄, h₅⟩,
      fun h => ⟨h.nonempty, h.oneLine, h.noDollar, h.noWord, h.last⟩⟩

theorem PlainBody.getLast?_or {s : Text} (h : PlainBody s) (b : Option Char) :
    s.getLast?.or b ≠ some '\\' := by
  have hlast := h.last
  rw [List.getLast?_eq_some_getLast h.nonempty] at hlast ⊢
  exact hlast

/-- What stands in front of the body of a span. -/
def bodyLeaders : List Char := ['$', '[', '(', '}']

/-- What stands behind the body of a span. -/
def bodyFollowers : List Char := ['$', '\\']

variable {α : Type}

/-- Behind some character, every mark of the passage stands as the body of a span does. -/
def Framed : Option Char → Passage α → Prop
  | _, [] => True
  | _, .char c :: g => Framed (some c) g
  | b, .mention _ :: g => (∃ e ∈ bodyLeaders, b = some e) ∧
      (∃ d ∈ bodyFollowers, ∃ h, g = .char d :: h) ∧ Framed none g

/-- The last character of a passage behind some character, unless it ends with a mark. -/
def lastChar (b : Option Char) (g : Passage α) : Option Char :=
  g.foldl (fun _ x => match x with
    | .char c => some c
    | .mention _ => none) b

theorem Framed.append_right {b : Option Char} {g h : Passage α} (hg : Framed b (g ++ h)) :
    Framed (lastChar b g) h := by
  induction g generalizing b with
  | nil => exact hg
  | cons x g ih =>
    cases x with
    | char c => exact ih hg
    | mention a => exact ih hg.2.2

theorem lastChar_append_char (b : Option Char) (g : Passage α) (c : Char) :
    lastChar b (g ++ [.char c]) = some c := by
  simp [lastChar]

/-! ## Words -/

/-- A word that neither occurs in a plain body, nor reaches into or out of one. -/
structure Delimiter (w : Text) : Prop where
  nonempty : w ≠ []
  inside : ∀ x d s, PlainBody x → d ∈ bodyFollowers → Text.Avoids w x (d :: s)
  across : w.IsChain fun e c => e ∈ bodyLeaders → c = '$'

theorem delimiter_dollars {w : Text} (hchain : ('$' :: w).IsChain fun e c => e ∈ bodyLeaders → c = '$') :
    Delimiter ('$' :: w) :=
  ⟨by simp, fun _ _ _ hx _ => Text.avoids_of_not_mem hx.noDollar, hchain⟩

/-- No word with a backslash reaches from a body to what follows. -/
theorem avoids_of_not_infix {t rest x : Text} {d : Char} {s : Text} (ht : ∀ d ∈ bodyFollowers, d ∉ t)
    (hd : d ∈ bodyFollowers) (hx : ¬ ('\\' :: t) <:+: x) :
    Text.Avoids ('\\' :: t ++ rest) x (d :: s) := by
  induction x with
  | nil => trivial
  | cons c x ih =>
    refine ⟨fun hp => ?_, ih fun hi => hx (hi.trans (List.suffix_cons c x).isInfix)⟩
    obtain ⟨r, hr⟩ : '\\' :: t <+: (c :: x) ++ d :: s := (List.prefix_append _ _).trans hp
    rcases List.append_eq_append_iff.1 hr with ⟨a, ha, -⟩ | ⟨z, hz, hlater⟩
    · exact hx ⟨[], a, by simpa using ha.symm⟩
    · cases z with
      | nil => exact hx ⟨[], [], by simpa using hz⟩
      | cons e z =>
        obtain ⟨-, htail⟩ := List.cons.inj hz
        obtain ⟨rfl, -⟩ := List.cons.inj hlater
        exact ht _ hd (by rw [htail]; simp)

theorem delimiter_word (t rest : Text) (hword : '\\' :: t ∈ delimiterWords)
    (ht : ∀ d ∈ bodyFollowers, d ∉ t)
    (hchain : ('\\' :: t ++ rest).IsChain fun e c => e ∈ bodyLeaders → c = '$') :
    Delimiter ('\\' :: t ++ rest) :=
  ⟨by simp, fun _ _ _ hx hd => avoids_of_not_infix ht hd (hx.noWord _ hword), hchain⟩

theorem delimiter_beginTag {name : Text}
    (hchain : (beginTag name).IsChain fun e c => e ∈ bodyLeaders → c = '$') :
    Delimiter (beginTag name) :=
  delimiter_word "begin".toList (braced name) (by decide) (by simp [bodyFollowers]) hchain

theorem delimiter_endTag {name : Text}
    (hchain : (endTag name).IsChain fun e c => e ∈ bodyLeaders → c = '$') :
    Delimiter (endTag name) :=
  delimiter_word "end".toList (braced name) (by decide) (by simp [bodyFollowers]) hchain

/-! ## Looking for words in passages -/

namespace Passage

/-- The passage behind a word at its front. -/
def dropFront? : Text → Passage α → Option (Passage α)
  | [], g => some g
  | c :: w, .char d :: g => if c = d then dropFront? w g else none
  | _ :: _, _ => none

/-- The parts of a passage around the first occurrence of a word. -/
def find? (w : Text) : Passage α → Option (Passage α × Passage α)
  | [] => none
  | .char c :: g =>
    match dropFront? w (.char c :: g) with
    | some h => some ([], h)
    | none => (find? w g).map fun found => (.char c :: found.1, found.2)
  | .mention a :: g => (find? w g).map fun found => (.mention a :: found.1, found.2)

theorem eq_of_dropFront? {w : Text} {g h : Passage α} (hd : dropFront? w g = some h) :
    g = ofText w ++ h := by
  fun_induction dropFront? w g with
  | case1 g => exact Option.some.inj hd
  | case2 c w g ih => rw [ih hd]; rfl
  | case3 => exact absurd hd (by simp)
  | case4 => exact absurd hd (by simp)

theorem eq_of_find? {w : Text} {g x y : Passage α} (hf : find? w g = some (x, y)) :
    g = x ++ ofText w ++ y := by
  fun_induction find? w g generalizing x with
  | case1 => exact absurd hf (by simp)
  | case2 c g h hd =>
    obtain ⟨rfl, rfl⟩ := Prod.mk.inj (Option.some.inj hf)
    exact eq_of_dropFront? hd
  | case3 c g hd ih =>
    obtain ⟨⟨u, v⟩, huv, heq⟩ := Option.map_eq_some_iff.1 hf
    obtain ⟨rfl, rfl⟩ := Prod.mk.inj heq
    rw [ih huv]
    rfl
  | case4 a g ih =>
    obtain ⟨⟨u, v⟩, huv, heq⟩ := Option.map_eq_some_iff.1 hf
    obtain ⟨rfl, rfl⟩ := Prod.mk.inj heq
    rw [ih huv]
    rfl

end Passage

section Fill

variable {content : α → Text} (hplain : ∀ a, PlainBody (content a))

include hplain

/-- Behind the first character of a word, it does not matter what is put in. -/
theorem dropFront?_fill_behind {v : Text} {b : Option Char} {g : Passage α}
    (hv : v.IsChain fun e c => e ∈ bodyLeaders → c = '$')
    (hbv : ∀ e ∈ bodyLeaders, b = some e → ∀ c u, v = c :: u → c = '$') (hg : Framed b g) :
    Text.dropFront? v (fill content g) = (Passage.dropFront? v g).map (fill content) := by
  induction v generalizing b g with
  | nil => rfl
  | cons c v ih =>
    cases g with
    | nil => rfl
    | cons x g =>
      cases x with
      | char d =>
        rw [fill_char, Text.dropFront?, Passage.dropFront?]
        split
        · rename_i hcd
          refine ih hv.tail (fun e he hd c' u hu => ?_) hg
          rw [hu, hcd] at hv
          rw [Option.some.inj hd] at hv
          exact hv.rel he
        · rfl
      | mention a =>
        obtain ⟨⟨e, he, hb⟩, -⟩ := hg
        obtain rfl := hbv e he hb c v rfl
        obtain ⟨x, xs, hx⟩ := List.exists_cons_of_ne_nil (hplain a).nonempty
        have hne : '$' ≠ x := by
          rintro rfl
          exact (hplain a).noDollar (by rw [hx]; simp)
        rw [fill_mention, hx, List.cons_append, Text.dropFront?, if_neg hne]
        rfl

theorem dropFront?_fill {w : Text} (hw : Delimiter w) {b : Option Char} {g : Passage α}
    (hg : Framed b g) :
    Text.dropFront? w (fill content g) = (Passage.dropFront? w g).map (fill content) := by
  obtain ⟨c, v, rfl⟩ := List.exists_cons_of_ne_nil hw.nonempty
  cases g with
  | nil => rfl
  | cons x g =>
    cases x with
    | char d =>
      rw [fill_char, Text.dropFront?, Passage.dropFront?]
      split
      · rename_i hcd
        refine dropFront?_fill_behind hplain hw.across.tail (fun e he hd c' u hu => ?_) hg
        have hchain := hw.across
        rw [hu, hcd, Option.some.inj hd] at hchain
        exact hchain.rel he
      · rfl
    | mention a =>
      obtain ⟨-, ⟨d, hd, h, rfl⟩, -⟩ := hg
      obtain ⟨x, xs, hx⟩ := List.exists_cons_of_ne_nil (hplain a).nonempty
      have havoids := hw.inside (content a) d (fill content h) (hplain a) hd
      rw [hx] at havoids
      have hnone := Text.dropFront?_eq_none_iff.2 havoids.1
      rw [fill_mention, fill_char, hx, List.cons_append, hnone]
      rfl

theorem find?_fill {w : Text} (hw : Delimiter w) {b : Option Char} {g : Passage α}
    (hg : Framed b g) : Text.find? w (fill content g) =
      (Passage.find? w g).map fun found => (fill content found.1, fill content found.2) := by
  induction g generalizing b with
  | nil => exact Text.find?_eq_none (x := []) hw.nonempty trivial
  | cons x g ih =>
    cases x with
    | char c =>
      have hfront := dropFront?_fill hplain hw hg
      rw [fill_char] at hfront
      rw [fill_char, Text.find?, Passage.find?, hfront]
      cases Passage.dropFront? w (.char c :: g) with
      | some h => rfl
      | none =>
        rw [Option.map_none, ih hg]
        simp only [Option.map_map]
        rfl
    | mention a =>
      obtain ⟨-, ⟨d, hd, h, rfl⟩, hlater⟩ := hg
      have havoids := hw.inside (content a) d (fill content h) (hplain a) hd
      have hfind : Passage.find? w (.mention a :: .char d :: h) =
          (Passage.find? w (.char d :: h)).map fun found => (.mention a :: found.1, found.2) := rfl
      rw [fill_mention, fill_char, Text.find?_avoids havoids, ← fill_char, ih hlater, hfind,
        Option.map_map, Option.map_map]
      rfl

end Fill

/-! ## Spans in passages -/

/-- What stands behind a span with one of some pairs of delimiters at the front of a passage. -/
def Passage.behindFrame (frames : List Frame) (g : Passage α) : Option (Passage α) :=
  frames.findSome? fun f =>
    (Passage.dropFront? f.1 g).bind fun h => (Passage.find? f.2 h).map Prod.snd

/-- Does a piece hold only characters of a class?  A mark is taken to do so. -/
def Piece.allows (ok : Char → Bool) : Piece α → Bool
  | char c => ok c
  | mention _ => true

/-- What stands behind a span between single dollars at the front of a passage. -/
def Passage.behindDollars (ok : Char → Bool) (slashed : Bool) (g : Passage α) :
    Option (Passage α) :=
  if slashed then none
  else (Passage.dropFront? ['$'] g).bind fun h => (Passage.find? ['$'] h).bind fun found =>
    if !found.1.isEmpty && found.1.all (Piece.allows ok) && lastChar none found.1 != some '\\' then
      some found.2
    else none

section Fill

variable {content : α → Text} (hplain : ∀ a, PlainBody (content a))

include hplain

/-- A backslash at the end of a text stands at the end of the passage. -/
theorem getLast?_fill {b b' : Option Char} (hb : b' = some '\\' ↔ b = some '\\') (g : Passage α) :
    (fill content g).getLast?.or b' = some '\\' ↔ lastChar b g = some '\\' := by
  induction g generalizing b b' with
  | nil => exact hb
  | cons x g ih =>
    cases x with
    | char c =>
      rw [fill_char, ← List.singleton_append, getLast?_append_or]
      exact ih Iff.rfl
    | mention a =>
      rw [fill_mention, getLast?_append_or]
      exact ih (iff_of_false ((hplain a).getLast?_or b') (by simp))

theorem isEmpty_fill (g : Passage α) : (fill content g).isEmpty = g.isEmpty := by
  cases g with
  | nil => rfl
  | cons x g =>
    cases x with
    | char c => rfl
    | mention a =>
      obtain ⟨x, xs, hx⟩ := List.exists_cons_of_ne_nil (hplain a).nonempty
      rw [fill_mention, hx]
      rfl

theorem behindFrame_fill {frames : List Frame}
    (hframes : ∀ f ∈ frames, Delimiter f.1 ∧ Delimiter f.2) {b : Option Char} {g : Passage α}
    (hg : Framed b g) : LatexPreview.behindFrame frames (fill content g) =
      (Passage.behindFrame frames g).map (fill content) := by
  have hone : ∀ f ∈ frames, ((Text.dropFront? f.1 (fill content g)).bind fun r =>
      (Text.find? f.2 r).map Prod.snd) = ((Passage.dropFront? f.1 g).bind fun h =>
      (Passage.find? f.2 h).map Prod.snd).map (fill content) := by
    intro f hf
    obtain ⟨hopen, hclose⟩ := hframes f hf
    rw [dropFront?_fill hplain hopen hg]
    cases hdrop : Passage.dropFront? f.1 g with
    | none => rfl
    | some h =>
      rw [eq_of_dropFront? hdrop] at hg
      rw [Option.map_some, Option.bind_some, Option.bind_some,
        find?_fill hplain hclose hg.append_right, Option.map_map, Option.map_map]
      rfl
  rw [LatexPreview.behindFrame, Passage.behindFrame]
  induction frames with
  | nil => rfl
  | cons f frames ih =>
    rw [← List.singleton_append, List.findSome?_append, List.findSome?_append,
      List.findSome?_singleton, List.findSome?_singleton, hone f (by simp), Option.map_or,
      ih (fun f hf => hframes f (by simp [hf])) fun f hf => hone f (by simp [hf])]

theorem behindDollars_fill {ok : Char → Bool} (hok : ∀ a, ∀ c ∈ content a, ok c = true)
    {b b' : Option Char} (hb : b' = some '\\' ↔ b = some '\\') {g : Passage α}
    (hg : Framed b g) : LatexPreview.behindDollars ok b' (fill content g) =
      (Passage.behindDollars ok (b == some '\\') g).map (fill content) := by
  have hdollar : Delimiter ['$'] := delimiter_dollars (by simp)
  have hall : ∀ x : Passage α, (fill content x).all ok = x.all (Piece.allows ok) := by
    intro x
    induction x with
    | nil => rfl
    | cons y x ih =>
      cases y with
      | char c => rw [fill_char, List.all_cons, List.all_cons, ih]; rfl
      | mention a =>
        rw [fill_mention, List.all_append, List.all_cons, ih, List.all_eq_true.2 (hok a)]
        rfl
  have hlast : ∀ x : Passage α, ((fill content x).getLast? != some '\\') =
      (lastChar none x != some '\\') := by
    intro x
    have hiff : (fill content x).getLast?.or none = some '\\' ↔ lastChar none x = some '\\' :=
      getLast?_fill hplain Iff.rfl x
    rw [Option.or_none] at hiff
    rw [Bool.eq_iff_iff, bne_iff_ne, bne_iff_ne, ne_eq, ne_eq, hiff]
  rw [LatexPreview.behindDollars, Passage.behindDollars]
  by_cases hslash : b = some '\\'
  · rw [if_pos (hb.2 hslash), if_pos (by simp [hslash])]
    rfl
  rw [if_neg (fun h => hslash (hb.1 h)), if_neg (by simpa using hslash),
    dropFront?_fill hplain hdollar hg]
  cases hdrop : Passage.dropFront? ['$'] g with
  | none => rfl
  | some h =>
    rw [eq_of_dropFront? hdrop] at hg
    rw [Option.map_some, Option.bind_some, Option.bind_some,
      find?_fill hplain hdollar hg.append_right]
    cases Passage.find? ['$'] h with
    | none => rfl
    | some found =>
      simp only [Option.map_some, Option.bind_some, isEmpty_fill hplain, hall, hlast]
      split <;> rfl

end Fill

/-! ## Searching passages -/

/-- A pattern whose matches are found by looking at the passage, whatever plain bodies are put
into it. -/
structure Uniform (p : Pattern) (behind : Bool → Passage α → Option (Passage α)) : Prop where
  consumes : p.Consumes
  reads : ∀ content : α → Text, (∀ a, PlainBody (content a)) → ∀ (b b' : Option Char)
    (g : Passage α), (b' = some '\\' ↔ b = some '\\') → Framed b g →
    (p.at? b' (fill content g)).map (·.rest) = (behind (b == some '\\') g).map (fill content)
  inside : ∀ x d s b, PlainBody x → d ∈ bodyFollowers → p.Skips b x (d :: s)
  split : ∀ slashed g h, behind slashed g = some h → ∃ m e, e ≠ '\\' ∧ g = m ++ .char e :: h

theorem uniform_of_spans {p : Pattern} {frames : List Frame} (hp : p.Spans frames)
    (hconsumes : p.Consumes)
    (hframes : ∀ f ∈ frames, Delimiter f.1 ∧ Delimiter f.2 ∧ ∃ w e, e ≠ '\\' ∧ f.2 = w ++ [e]) :
    Uniform p fun _ (g : Passage α) => Passage.behindFrame frames g := by
  refine ⟨hconsumes, fun content hplain b b' g _ hg => ?_, fun x d s b hx hd => ?_,
    fun _ g h hh => ?_⟩
  · rw [hp, behindFrame_fill hplain (fun f hf => ⟨(hframes f hf).1, (hframes f hf).2.1⟩) hg]
  · exact hp.skips (fun f hf => (hframes f hf).1.inside x d s hx hd) b
  · obtain ⟨f, hf, hsome⟩ := List.exists_of_findSome?_eq_some hh
    obtain ⟨r, hr, hfound⟩ := Option.bind_eq_some_iff.1 hsome
    obtain ⟨⟨x, y⟩, hxy, rfl⟩ := Option.map_eq_some_iff.1 hfound
    obtain ⟨-, -, w, e, he, hw⟩ := hframes f hf
    refine ⟨ofText f.1 ++ x ++ ofText w, e, he, ?_⟩
    rw [eq_of_dropFront? hr, eq_of_find? hxy, hw]
    simp [ofText]

theorem uniform_inlineDollars :
    Uniform inlineDollars (Passage.behindDollars (α := α) fun c => !"$\n".toList.contains c) := by
  refine ⟨opens_inlineDollars.consumes, fun content hplain b b' g hb hg => ?_,
    fun x d s b hx _ => opens_inlineDollars.skips hx.noDollar _, fun slashed g h hh => ?_⟩
  · rw [at?_inlineDollars, behindDollars_fill hplain (fun a c hc => ?_) hb hg]
    have hc' : c ≠ '$' ∧ c ≠ '\n' :=
      ⟨fun h => (hplain a).noDollar (h ▸ hc), fun h => (hplain a).oneLine (h ▸ hc)⟩
    simpa using hc'
  · rw [Passage.behindDollars] at hh
    split at hh
    · exact absurd hh (by simp)
    · obtain ⟨r, hr, hfound⟩ := Option.bind_eq_some_iff.1 hh
      obtain ⟨⟨x, y⟩, hxy, hsome⟩ := Option.bind_eq_some_iff.1 hfound
      split at hsome
      · obtain rfl := Option.some.inj hsome
        refine ⟨ofText ['$'] ++ x, '$', by decide, ?_⟩
        rw [eq_of_dropFront? hr, eq_of_find? hxy]
        simp [ofText]
      · exact absurd hsome (by simp)

/-- The names of the environments that display math. -/
def displayNames : List Text := ["align", "equation", "gather", "multline"].map (·.toList)

theorem delimiter_of_mem_envFrames {f : Frame} (hf : f ∈ envFrames displayNames) :
    Delimiter f.1 ∧ Delimiter f.2 ∧ ∃ w e, e ≠ '\\' ∧ f.2 = w ++ [e] := by
  have hchain : ∀ f ∈ envFrames displayNames,
      f.1.IsChain (fun e c => e ∈ bodyLeaders → c = '$') ∧
        f.2.IsChain (fun e c => e ∈ bodyLeaders → c = '$') := by decide
  obtain ⟨hopen, hclose⟩ := hchain f hf
  obtain ⟨name, rfl, -⟩ := exists_envFrame hf
  exact ⟨delimiter_beginTag hopen, delimiter_endTag hclose, "\\end\x7b".toList ++ name, '}',
    by decide, by simp [envFrame, endTag, braced]⟩

theorem uniform_of_mem_mathSpanKinds {kind : Pattern × MathPlace} (h : kind ∈ mathSpanKinds) :
    ∃ behind, Uniform (α := α) kind.1 behind := by
  have hdelimited : ∀ {p : Pattern} {c d e : Char}, p.Spans [([c, d], [c, e])] → p.Consumes →
      Delimiter [c, d] → Delimiter [c, e] → e ≠ '\\' →
      ∃ behind, Uniform (α := α) p behind := by
    intro p c d e hp hconsumes hopen hclose he
    refine ⟨_, uniform_of_spans hp hconsumes fun f hf => ?_⟩
    rw [List.mem_singleton.1 hf]
    exact ⟨hopen, hclose, [c], e, he, rfl⟩
  have hword : ∀ c : Char, ['\\', c] ∈ delimiterWords → c ∉ bodyFollowers →
      Delimiter ['\\', c] := by
    intro c hc hfollows
    refine delimiter_word [c] [] hc (fun d hd hmem => hfollows ?_) ?_
    · rwa [← List.mem_singleton.1 hmem]
    · simp [bodyLeaders]
  simp only [mathSpanKinds, List.mem_cons, List.not_mem_nil, or_false] at h
  rcases h with rfl | rfl | rfl | rfl | rfl
  · exact hdelimited spans_displayDollars opens_displayDollars.consumes
      (delimiter_dollars (by decide)) (delimiter_dollars (by decide)) (by decide)
  · exact hdelimited spans_displayBrackets opens_displayBrackets.consumes
      (hword '[' (by decide) (by decide)) (hword ']' (by decide) (by decide)) (by decide)
  · exact ⟨_, uniform_of_spans (spans_mathEnvironment (by simp)) (opens_mathEnvironment _).consumes
      fun f hf => delimiter_of_mem_envFrames hf⟩
  · exact hdelimited spans_inlineParens opens_inlineParens.consumes
      (hword '(' (by decide) (by decide)) (hword ')' (by decide) (by decide)) (by decide)
  · exact ⟨_, uniform_inlineDollars⟩

/-! ## Cuts of passages -/

theorem Sliced.map_prepend {β γ : Type} {f : List β → List γ}
    (hf : ∀ x y, f (x ++ y) = f x ++ f y) (front : List β) (σ : Sliced β) :
    (σ.prepend front).map f = (σ.map f).prepend (f front) := by
  cases σ <;> simp [prepend, map, hf]

/-- All texts of a passage behind some character are cut into the same slices, and also behind
another character, unless only one of the two is a backslash. -/
structure CutsAs (p : Pattern) (b : Option Char) (g : Passage α) (σ : Sliced (Piece α)) : Prop where
  whole : σ.whole = g
  cut : ∀ content : α → Text, (∀ a, PlainBody (content a)) →
    ∀ b', (b' = some '\\' ↔ b = some '\\') →
      (p.cutFrom b' (Passage.fill content g)).sliced = σ.map (Passage.fill content)

section Cuts

variable {p : Pattern} {behind : Bool → Passage α → Option (Passage α)} {b : Option Char}
  {g h : Passage α} {σ : Sliced (Piece α)}

theorem cutsAs_nil (hp : Uniform p behind) : CutsAs (α := α) p b [] (.tail []) := by
  refine ⟨rfl, fun content _ b' _ => ?_⟩
  rw [fill_nil, cutFrom_eq_tail hp.consumes (show p.Skips b' [] [] from trivial)]
  rfl

/-- What is prepended to a cut text is prepended to the passage. -/
theorem sliced_prepend_fill {content : α → Text} {x : Passage α} {c : Cut}
    (h : c.sliced = σ.map (Passage.fill content)) :
    (c.prepend (Passage.fill content x)).sliced = (σ.prepend x).map (Passage.fill content) := by
  rw [Cut.sliced_prepend, h, Sliced.map_prepend (fill_append content)]

/-- A body is gone over. -/
theorem CutsAs.mention (hp : Uniform p behind) {d : Char} (hd : d ∈ bodyFollowers) (a : α)
    (hlater : CutsAs p none (.char d :: h) σ) :
    CutsAs p b (.mention a :: .char d :: h) (σ.prepend [.mention a]) := by
  refine ⟨by rw [Sliced.whole_prepend, hlater.whole]; rfl, fun content hplain b' _ => ?_⟩
  have hskips := hp.inside (content a) d (Passage.fill content h) b' (hplain a) hd
  have hlast : (content a).getLast?.or b' = some '\\' ↔ (none : Option Char) = some '\\' :=
    iff_of_false ((hplain a).getLast?_or b') (by simp)
  have hslices := sliced_prepend_fill (x := [.mention a]) (hlater.cut content hplain _ hlast)
  rw [fill_mention, fill_nil, List.append_nil] at hslices
  rw [fill_mention, fill_char, cutFrom_skips hp.consumes hskips, ← fill_char, hslices]

/-- So is a character where there is no match. -/
theorem CutsAs.char (hp : Uniform p behind) {c : Char} (hg : Framed b (.char c :: g))
    (hbehind : behind (b == some '\\') (.char c :: g) = none) (hlater : CutsAs p (some c) g σ) :
    CutsAs p b (.char c :: g) (σ.prepend [.char c]) := by
  refine ⟨by rw [Sliced.whole_prepend, hlater.whole]; rfl, fun content hplain b' hb => ?_⟩
  have hread := hp.reads content hplain b b' _ hb hg
  rw [hbehind, Option.map_none, Option.map_eq_none_iff, fill_char] at hread
  have hskips : p.Skips b' [c] (Passage.fill content g) := ⟨hread, trivial⟩
  have hslices := sliced_prepend_fill (x := [.char c]) (hlater.cut content hplain (some c) Iff.rfl)
  rw [fill_char, ← List.singleton_append, cutFrom_skips hp.consumes hskips]
  exact hslices

/-- A match is taken out, whatever the bodies in it are. -/
theorem CutsAs.slice (hp : Uniform p behind) {m : Passage α} {e : Char}
    (hg : Framed b ((m ++ [.char e]) ++ h))
    (hbehind : behind (b == some '\\') ((m ++ [.char e]) ++ h) = some h)
    (hlater : CutsAs p (some e) h σ) :
    CutsAs p b ((m ++ [.char e]) ++ h) (.slice [] (m ++ [.char e]) σ) := by
  refine ⟨by rw [Sliced.whole, hlater.whole]; rfl, fun content hplain b' hb => ?_⟩
  have hread := hp.reads content hplain b b' _ hb hg
  rw [hbehind, Option.map_some] at hread
  obtain ⟨stop, hstop, hrest⟩ := Option.map_eq_some_iff.1 hread
  rw [fill_append] at hstop ⊢
  have hne : Passage.fill content (m ++ [.char e]) ≠ [] := by simp
  have hlast : (Passage.fill content (m ++ [.char e])).getLast?.or b' = some e := by simp
  rw [cutFrom_hit hp.consumes hne hstop hrest, hlast, Sliced.map,
    ← hlater.cut content hplain (some e) Iff.rfl]
  rfl

/-- All texts of a passage are cut in the same way. -/
theorem Uniform.exists_cut (hp : Uniform p behind) (hg : Framed b g) : ∃ σ, CutsAs p b g σ := by
  induction hn : g.length using Nat.strong_induction_on generalizing b g with
  | _ n ih =>
    cases g with
    | nil => exact ⟨_, cutsAs_nil hp⟩
    | cons x g =>
      cases x with
      | mention a =>
        obtain ⟨-, ⟨d, hd, h, rfl⟩, hlater⟩ := hg
        obtain ⟨σ, hσ⟩ := ih _ (by simp [← hn]) hlater rfl
        exact ⟨_, hσ.mention hp hd a⟩
      | char c =>
        cases hbehind : behind (b == some '\\') (.char c :: g) with
        | none =>
          obtain ⟨σ, hσ⟩ := ih _ (by simp [← hn]) (show Framed (some c) g from hg) rfl
          exact ⟨_, hσ.char hp hg hbehind⟩
        | some h =>
          obtain ⟨m, e, -, hsplit⟩ := hp.split _ _ _ hbehind
          have hsplit' : .char c :: g = (m ++ [.char e]) ++ h := by rw [hsplit]; simp
          have hlater : Framed (some e) h := by
            rw [hsplit'] at hg
            simpa [lastChar_append_char] using hg.append_right
          obtain ⟨σ, hσ⟩ := ih _ (by rw [← hn, hsplit]; simp; omega) hlater rfl
          rw [hsplit'] at hg hbehind ⊢
          exact ⟨_, hσ.slice hp hg hbehind⟩

end Cuts

end LatexPreview
