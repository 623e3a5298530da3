import Mathlib
import LatexPreview.Proofs.Pattern.Matches
import LatexPreview.Source.Tags

/-!
# The shape of matches

What the text of a match looks like: the character it starts with, the characters it may
end with, the classes its characters belong to, and what stands around a captured part.

* `Opens`, `ClosesIn` tell the first and the last character of every match, `Leads` its first word
* `Frames` tells that a captured part stands between two delimiters
* `matches_argument`: an argument of a command is a text of one line in braces
* `Frames.found`: the same for the hits of a search
-/

namespace LatexPreview

/-! ## Splitting lists -/

/-- An element of two lists stands in one of them. -/
theorem append_eq_append_cons {α : Type} {t s a b : List α} {c : α} (h : t ++ s = a ++ c :: b) :
    (∃ a', a = t ++ a' ∧ s = a' ++ c :: b) ∨ ∃ v, t = a ++ c :: v ∧ b = v ++ s := by
  rcases List.append_eq_append_iff.1 h with ⟨a', ha, hs⟩ | ⟨v, ht, hb⟩
  · exact .inl ⟨a', ha, hs⟩
  · cases v with
    | nil => exact .inl ⟨[], by simpa using ht.symm, by simpa using hb.symm⟩
    | cons d v =>
      obtain ⟨rfl, rfl⟩ := List.cons.inj hb
      exact .inr ⟨v, ht, rfl⟩

/-- Two lists that end at the first occurrence of an element are the same. -/
theorem eq_of_append_cons_eq {a b x y : Text} {c : Char} (ha : c ∉ a) (hb : c ∉ b)
    (h : a ++ c :: x = b ++ c :: y) : a = b ∧ x = y := by
  rcases append_eq_append_cons h with ⟨b', rfl, hx⟩ | ⟨v, rfl, -⟩
  · cases b' with
    | nil => exact ⟨by simp, (List.cons.inj hx).2⟩
    | cons d b' =>
      obtain ⟨rfl, -⟩ := List.cons.inj hx
      exact absurd (by simp) hb
  · exact absurd (by simp) ha

namespace Pattern

/-! ## Captured parts -/

/-- A pattern that captures nothing. -/
def Bare : Pattern → Prop
  | seq p q | alt p q => p.Bare ∧ q.Bare
  | many p | fewest p => p.Bare
  | capture _ _ => False
  | done | one _ | again _ | notAhead _ | edge _ => True

@[simp] theorem bare_append {p q : Pattern} : (p ++ q).Bare ↔ p.Bare ∧ q.Bare := Iff.rfl

theorem Matches.slots_eq {p : Pattern} (hp : p.Bare) {s t : Cursor} (h : p.Matches s t) :
    t.slots = s.slots := by
  induction p generalizing s t with
  | done => rw [show t = s from h]
  | one ok =>
    obtain ⟨c, r, -, -, rfl⟩ := h
    rfl
  | seq p q ihp ihq =>
    obtain ⟨m, hm, ht⟩ := h
    rw [ihq hp.2 ht, ihp hp.1 hm]
  | alt p q ihp ihq =>
    rcases h with h | h
    · exact ihp hp.1 h
    · exact ihq hp.2 h
  | many p ih | fewest p ih =>
    refine Relation.ReflTransGen.head_induction_on h rfl ?_
    intro a b hab _ hb
    rw [hb, ih hp hab]
  | capture label p _ => exact absurd hp id
  | again label =>
    obtain ⟨word, r, -, -, rfl⟩ := h
    rfl
  | notAhead p _ | edge ok => rw [h.2]

theorem bare_lit (w : Text) : (lit w).Bare := by
  induction w with
  | nil => trivial
  | cons c w ih =>
    cases w with
    | nil => trivial
    | cons d w => exact ⟨trivial, ih⟩

theorem get?_of_slots {t : Cursor} {label : String} {w r : Text}
    {more : List (String × Text × Text)} (h : t.slots = (label, w ++ r, r) :: more) :
    t.get? label = some w := by
  rw [Cursor.get?, h]
  simp [List.lookup, Text.between_append]

/-- What is matched behind a captured part does not change it. -/
theorem Matches.get?_eq {p : Pattern} (hp : p.Bare) {s t : Cursor} (h : p.Matches s t)
    (label : String) : t.get? label = s.get? label := by
  rw [Cursor.get?, Cursor.get?, h.slots_eq hp]

theorem matches_capture {label : String} {p : Pattern} (hp : p.Bare) {s t : Cursor}
    (h : (capture label p).Matches s t) :
    ∃ w, s.rest = w ++ t.rest ∧ t.slots = (label, w ++ t.rest, t.rest) :: s.slots ∧
      ∃ m, p.Matches s m ∧ m.rest = t.rest := by
  obtain ⟨m, hm, rfl⟩ := h
  obtain ⟨w, hw⟩ := hm.exists_append
  exact ⟨w, hw, by rw [hm.slots_eq hp, ← hw], m, hm, rfl⟩

/-! ## Classes of characters -/

/-- A pattern whose characters all have a property. -/
def Over (P : Char → Prop) : Pattern → Prop
  | one ok => ∀ c, ok c = true → P c
  | seq p q | alt p q => p.Over P ∧ q.Over P
  | many p | fewest p | capture _ p => p.Over P
  | again _ => False
  | done | notAhead _ | edge _ => True

@[simp] theorem over_append {P : Char → Prop} {p q : Pattern} :
    (p ++ q).Over P ↔ p.Over P ∧ q.Over P := Iff.rfl

theorem Matches.over {P : Char → Prop} {p : Pattern} (hp : p.Over P) {s t : Cursor}
    (h : p.Matches s t) : ∃ w, s.rest = w ++ t.rest ∧ ∀ c ∈ w, P c := by
  induction p generalizing s t with
  | done => exact ⟨[], by rw [show t = s from h]; rfl, by simp⟩
  | one ok =>
    obtain ⟨c, r, hs, hc, rfl⟩ := h
    exact ⟨[c], hs, by simpa using hp c hc⟩
  | seq p q ihp ihq =>
    obtain ⟨m, hm, ht⟩ := h
    obtain ⟨u, hu, hpu⟩ := ihp hp.1 hm
    obtain ⟨v, hv, hqv⟩ := ihq hp.2 ht
    refine ⟨u ++ v, by rw [hu, hv, List.append_assoc], ?_⟩
    intro c hc
    rcases List.mem_append.1 hc with hc | hc
    · exact hpu c hc
    · exact hqv c hc
  | alt p q ihp ihq =>
    rcases h with h | h
    · exact ihp hp.1 h
    · exact ihq hp.2 h
  | many p ih | fewest p ih =>
    refine Relation.ReflTransGen.head_induction_on h ⟨[], rfl, by simp⟩ ?_
    rintro a b hab - ⟨v, hv, hpv⟩
    obtain ⟨u, hu, hpu⟩ := ih hp hab
    refine ⟨u ++ v, by rw [hu, hv, List.append_assoc], ?_⟩
    intro c hc
    rcases List.mem_append.1 hc with hc | hc
    · exact hpu c hc
    · exact hpv c hc
  | capture label p ih =>
    obtain ⟨m, hm, rfl⟩ := h
    obtain ⟨w, hw, hpw⟩ := ih hp hm
    exact ⟨w, hw, hpw⟩
  | again label => exact absurd hp id
  | notAhead p _ | edge ok => exact ⟨[], by rw [h.2]; rfl, by simp⟩

theorem over_lit {P : Char → Prop} {w : Text} (hw : ∀ c ∈ w, P c) : (lit w).Over P := by
  induction w with
  | nil => trivial
  | cons c w ih =>
    have hc : (one (· == c)).Over P := fun d hd => eq_of_beq hd ▸ hw c (by simp)
    cases w with
    | nil => exact hc
    | cons d w => exact ⟨hc, ih fun e he => hw e (by simp [he])⟩

/-- A literal is matched by itself only. -/
theorem matches_lit {w : Text} {s t : Cursor} (h : (lit w).Matches s t) :
    s.rest = w ++ t.rest := by
  induction w generalizing s with
  | nil => rw [show t = s from h]; rfl
  | cons c w ih =>
    cases w with
    | nil =>
      obtain ⟨d, r, hs, hd, rfl⟩ := h
      rw [hs, eq_of_beq hd]
      rfl
    | cons d w =>
      obtain ⟨m, ⟨e, r, hs, he, rfl⟩, hm⟩ := h
      rw [hs, eq_of_beq he, show r = d :: w ++ t.rest from ih hm]
      rfl

/-- In a caseless match, each letter stands for itself or for another form of it. -/
theorem matches_caseless {w : String} {s t : Cursor} (h : (caseless w).Matches s t) :
    ∃ x, s.rest = x ++ t.rest ∧ List.Forall₂ (fun a c => sameLetter a c = true) w.toList x := by
  rw [caseless] at h
  generalize w.toList = w at h ⊢
  induction w generalizing s with
  | nil => exact ⟨[], by rw [show t = s from h]; rfl, .nil⟩
  | cons a w ih =>
    obtain ⟨m, ⟨c, r, hs, hc, rfl⟩, hm⟩ := h
    obtain ⟨x, hx, hall⟩ := ih hm
    exact ⟨c :: x, by rw [hs, show r = x ++ t.rest from hx]; rfl, .cons hc hall⟩

theorem steady_lit (w : Text) : (lit w).Steady := by
  induction w with
  | nil => trivial
  | cons c w ih =>
    cases w with
    | nil => trivial
    | cons d w => exact ⟨trivial, ih⟩

theorem consumes_one (ok : Char → Bool) : (one ok).Consumes := by
  rintro s t ⟨c, r, hs, -, rfl⟩
  simp [hs, Cursor.next]

theorem exists_matches_lit {w r : Text} {s : Cursor} (hs : s.rest = w ++ r) :
    ∃ t, (lit w).Matches s t ∧ t.rest = r := by
  induction w generalizing s with
  | nil => exact ⟨s, rfl, hs⟩
  | cons c w ih =>
    cases w with
    | nil => exact ⟨_, ⟨c, r, hs, by simp, rfl⟩, rfl⟩
    | cons d w =>
      obtain ⟨t, ht, hr⟩ := ih (s := s.next c (d :: w ++ r)) rfl
      exact ⟨t, ⟨_, ⟨c, _, hs, by simp, rfl⟩, ht⟩, hr⟩

theorem exists_matches_many {ok : Char → Bool} {w r : Text} {s : Cursor}
    (hw : ∀ c ∈ w, ok c = true) (hs : s.rest = w ++ r) :
    ∃ t, (many (one ok)).Matches s t ∧ t.rest = r := by
  induction w generalizing s with
  | nil => exact ⟨s, .refl, hs⟩
  | cons c w ih =>
    obtain ⟨t, ht, hr⟩ := ih (s := s.next c (w ++ r)) (fun d hd => hw d (by simp [hd])) rfl
    exact ⟨t, .head ⟨c, _, hs, hw c (by simp), rfl⟩ ht, hr⟩

theorem matches_one_eq {d : Char} {s t : Cursor} (h : (one (· == d)).Matches s t) :
    s.rest = d :: t.rest := by
  obtain ⟨c, r, hs, hc, rfl⟩ := h
  rw [hs, eq_of_beq hc]
  rfl

/-! ## First and last characters -/

/-- Every match starts with the character. -/
def Opens (p : Pattern) (c : Char) : Prop :=
  ∀ s t, p.Matches s t → ∃ w, s.rest = c :: w ++ t.rest

/-- Every match ends with one of the characters. -/
def ClosesIn (p : Pattern) (cs : List Char) : Prop :=
  ∀ s t, p.Matches s t → ∃ w, ∃ c ∈ cs, s.rest = w ++ c :: t.rest

theorem opens_one (c : Char) : (one (· == c)).Opens c :=
  fun _ _ h => ⟨[], matches_one_eq h⟩

theorem opens_lit (c : Char) (w : Text) : (lit (c :: w)).Opens c :=
  fun _ _ h => ⟨w, matches_lit h⟩

theorem Opens.append {p : Pattern} {c : Char} (hp : p.Opens c) (q : Pattern) :
    (p ++ q).Opens c := by
  rintro s t ⟨m, hm, ht⟩
  obtain ⟨u, hu⟩ := hp s m hm
  obtain ⟨v, hv⟩ := ht.exists_append
  exact ⟨u ++ v, by rw [hu, hv]; simp⟩

theorem Opens.alt {p q : Pattern} {c : Char} (hp : p.Opens c) (hq : q.Opens c) :
    (alt p q).Opens c :=
  fun s t h => h.elim (hp s t) (hq s t)

theorem Opens.behindEdge {p : Pattern} {c : Char} (hp : p.Opens c)
    (ok : Option Char → Option Char → Bool) : (edge ok ++ p).Opens c := by
  rintro s t ⟨m, ⟨-, rfl⟩, ht⟩
  exact hp _ _ ht

theorem closesIn_one (c : Char) : (one (· == c)).ClosesIn [c] :=
  fun _ _ h => ⟨[], c, by simp, matches_one_eq h⟩

theorem closesIn_lit (w : Text) (c : Char) : (lit (w ++ [c])).ClosesIn [c] :=
  fun _ _ h => ⟨w, c, by simp, by rw [matches_lit h]; simp⟩

theorem ClosesIn.mono {p : Pattern} {cs ds : List Char} (hp : p.ClosesIn cs)
    (hsub : ∀ c ∈ cs, c ∈ ds) : p.ClosesIn ds := by
  intro s t h
  obtain ⟨w, c, hc, hs⟩ := hp s t h
  exact ⟨w, c, hsub c hc, hs⟩

theorem ClosesIn.alt {p q : Pattern} {cs : List Char} (hp : p.ClosesIn cs) (hq : q.ClosesIn cs) :
    (alt p q).ClosesIn cs :=
  fun s t h => h.elim (hp s t) (hq s t)

theorem ClosesIn.prepend {q : Pattern} {cs : List Char} (hq : q.ClosesIn cs) (p : Pattern) :
    (p ++ q).ClosesIn cs := by
  rintro s t ⟨m, hm, ht⟩
  obtain ⟨u, hu⟩ := hm.exists_append
  obtain ⟨v, c, hc, hv⟩ := hq m t ht
  exact ⟨u ++ v, c, hc, by rw [hu, hv]; simp⟩

theorem ClosesIn.optional {p q : Pattern} {cs : List Char} (hp : p.ClosesIn cs)
    (hq : q.ClosesIn cs) : (p ++ optional q).ClosesIn cs := by
  rintro s t ⟨m, hm, ht⟩
  rcases ht with ht | ht
  · exact hq.prepend p s t ⟨m, hm, ht⟩
  · rw [show t = m from ht]
    exact hp s m hm

theorem ClosesIn.capture {p : Pattern} {cs : List Char} (hp : p.ClosesIn cs) (label : String) :
    (capture label p).ClosesIn cs := by
  rintro s t ⟨m, hm, rfl⟩
  exact hp s m hm

theorem ClosesIn.edge {p : Pattern} {cs : List Char} (hp : p.ClosesIn cs)
    (ok : Option Char → Option Char → Bool) : (p ++ edge ok).ClosesIn cs := by
  rintro s t ⟨m, hm, -, rfl⟩
  exact hp s t hm

/-- Every match starts with one of the texts. -/
def Leads (p : Pattern) (ws : List Text) : Prop :=
  ∀ s t, p.Matches s t → ∃ w ∈ ws, ∃ m, s.rest = w ++ m ++ t.rest

theorem leads_lit (w m : Text) : (lit (w ++ m)).Leads [w] :=
  fun _ _ h => ⟨w, by simp, m, matches_lit h⟩

theorem leads_command (name : String) : (command name).Leads ['\\' :: name.toList] := by
  have hword := leads_lit ('\\' :: name.toList) []
  rwa [List.append_nil] at hword

theorem leads_opening (env : String) : (opening env).Leads ["\\begin".toList] := leads_lit _ _

theorem Leads.mono {p : Pattern} {vs ws : List Text} (hp : p.Leads vs) (hsub : ∀ w ∈ vs, w ∈ ws) :
    p.Leads ws := by
  intro s t h
  obtain ⟨w, hw, hs⟩ := hp s t h
  exact ⟨w, hsub w hw, hs⟩

theorem Leads.append {p : Pattern} {ws : List Text} (hp : p.Leads ws) (q : Pattern) :
    (p ++ q).Leads ws := by
  rintro s t ⟨m, hm, ht⟩
  obtain ⟨w, hw, u, hu⟩ := hp s m hm
  obtain ⟨v, hv⟩ := ht.exists_append
  exact ⟨w, hw, u ++ v, by rw [hu, hv]; simp⟩

theorem Leads.alt {p q : Pattern} {ws : List Text} (hp : p.Leads ws) (hq : q.Leads ws) :
    (alt p q).Leads ws :=
  fun s t h => h.elim (hp s t) (hq s t)

/-! ## Framed parts -/

/-- Every match captures a part under the label, between a delimiter that opens and one that
closes. -/
def Frames (p : Pattern) (label : String) : Prop :=
  ∀ s t, p.Matches s t → ∃ u c w d v, s.rest = u ++ c :: w ++ d :: v ++ t.rest ∧
    t.get? label = some w ∧ c ∈ ['{', '}', ']'] ∧ d ∈ ['}', '\\']

theorem Frames.prepend {q : Pattern} {label : String} (hq : q.Frames label) (p : Pattern) :
    (p ++ q).Frames label := by
  rintro s t ⟨m, hm, ht⟩
  obtain ⟨x, hx⟩ := hm.exists_append
  obtain ⟨u, c, w, d, v, hs, hget, hc, hd⟩ := hq m t ht
  exact ⟨x ++ u, c, w, d, v, by rw [hx, hs]; simp, hget, hc, hd⟩

theorem Frames.append {p : Pattern} {label : String} (hp : p.Frames label) {q : Pattern}
    (hq : q.Bare) : (p ++ q).Frames label := by
  rintro s t ⟨m, hm, ht⟩
  obtain ⟨x, hx⟩ := ht.exists_append
  obtain ⟨u, c, w, d, v, hs, hget, hc, hd⟩ := hp s m hm
  exact ⟨u, c, w, d, v ++ x, by rw [hs, hx]; simp, by rw [ht.get?_eq hq, hget], hc, hd⟩

theorem frames_capture {p inner q : Pattern} {label : String} {cs : List Char} {d : Char}
    (hp : p.ClosesIn cs) (hcs : ∀ c ∈ cs, c ∈ ['{', '}', ']']) (hinner : inner.Bare)
    (hq : q.Opens d) (hbare : q.Bare) (hd : d ∈ ['}', '\\']) :
    (p ++ capture label inner ++ q).Frames label := by
  rintro s t ⟨m, ⟨n, hn, hm⟩, ht⟩
  obtain ⟨u, c, hc, hu⟩ := hp s n hn
  obtain ⟨w, hw, hslots, -⟩ := matches_capture hinner hm
  obtain ⟨v, hv⟩ := hq m t ht
  refine ⟨u, c, w, d, v, by rw [hu, hw, hv]; simp, ?_, hcs c hc, hd⟩
  rw [ht.get?_eq hbare, get?_of_slots hslots]

/-- The body of an environment reaches from the tag that opens it to a backslash. -/
theorem frames_body {p q : Pattern} {cs : List Char} (hp : p.ClosesIn cs)
    (hcs : ∀ c ∈ cs, c ∈ ['{', '}', ']']) (hq : q.Opens '\\') (hbare : q.Bare) :
    (p ++ body ++ q).Frames "body" :=
  frames_capture hp hcs trivial hq hbare (by simp)

/-- A part in braces, kept under a label, whose characters all have a property. -/
theorem matches_braced {P : Char → Prop} {label : String} {inner : Pattern}
    (hbare : inner.Bare) (hover : inner.Over P) {s t : Cursor}
    (h : (one (· == '{') ++ capture label inner ++ one (· == '}')).Matches s t) :
    ∃ w, s.rest = '{' :: w ++ '}' :: t.rest ∧
      t.slots = (label, w ++ '}' :: t.rest, '}' :: t.rest) :: s.slots ∧ ∀ c ∈ w, P c := by
  obtain ⟨m, ⟨n, hn, hm⟩, ht⟩ := h
  obtain ⟨w, hw, hslots, k, hk, hrest⟩ := matches_capture hbare hm
  obtain ⟨x, hx, hP⟩ := hk.over hover
  have hopen := matches_one_eq hn
  have hclose := matches_one_eq ht
  obtain rfl : w = x := by rw [hrest, hw] at hx; exact List.append_cancel_right hx
  refine ⟨w, by rw [hopen, hw, hclose]; simp, ?_, hP⟩
  rw [ht.slots_eq (show (one _).Bare from trivial), hslots, hclose,
    hn.slots_eq (show (one _).Bare from trivial)]

/-- An argument is a text of one line in braces. -/
theorem matches_argument {label : String} {s t : Cursor} (h : (argument label).Matches s t) :
    ∃ w, s.rest = '{' :: w ++ '}' :: t.rest ∧
      t.slots = (label, w ++ '}' :: t.rest, '}' :: t.rest) :: s.slots ∧ '\n' ∉ w := by
  have hover : (nested (noneOf "\x7b\x7d\n")).Over (· ≠ '\n') := by
    refine ⟨?_, ⟨?_, ?_⟩, ?_⟩
    all_goals
      intro c hc
      rintro rfl
      exact absurd hc (by decide)
  obtain ⟨w, hs, hslots, hw⟩ := matches_braced (by simp [nested, noneOf, Bare]) hover h
  exact ⟨w, hs, hslots, fun hmem => hw _ hmem rfl⟩

theorem matches_longArgument {label : String} {s t : Cursor}
    (h : (longArgument label).Matches s t) :
    ∃ w, s.rest = '{' :: w ++ '}' :: t.rest ∧
      t.slots = (label, w ++ '}' :: t.rest, '}' :: t.rest) :: s.slots := by
  have hover : (nested (noneOf "\x7b\x7d")).Over (fun _ => True) := by
    simp [nested, noneOf, Over]
  obtain ⟨w, hs, hslots, -⟩ := matches_braced (by simp [nested, noneOf, Bare]) hover h
  exact ⟨w, hs, hslots⟩

theorem frames_argument (label : String) : (argument label).Frames label := by
  intro s t h
  obtain ⟨w, hs, hslots, -⟩ := matches_argument h
  exact ⟨[], '{', w, '}', [], by simp [hs], get?_of_slots hslots, by simp, by simp⟩

theorem frames_longArgument (label : String) : (longArgument label).Frames label := by
  intro s t h
  obtain ⟨w, hs, hslots⟩ := matches_longArgument h
  exact ⟨[], '{', w, '}', [], by simp [hs], get?_of_slots hslots, by simp, by simp⟩

theorem closesIn_argument (label : String) : (argument label).ClosesIn ['}'] :=
  (closesIn_one '}').prepend _

theorem closesIn_longArgument (label : String) : (longArgument label).ClosesIn ['}'] :=
  (closesIn_one '}').prepend _

theorem opens_command (name : String) : (command name).Opens '\\' := opens_lit _ _

theorem opens_opening (env : String) : (opening env).Opens '\\' := opens_lit _ _

theorem opens_closing (env : String) : (closing env).Opens '\\' := opens_lit _ _

theorem closesIn_command {name : String} {c : Char} (hc : name.toList.getLast? = some c) :
    (command name).ClosesIn [c] := by
  obtain ⟨w, hw⟩ := List.getLast?_eq_some_iff.1 hc
  rw [command, hw]
  exact closesIn_lit ('\\' :: w) c

theorem closesIn_opening (env : String) : (opening env).ClosesIn ['}'] := by
  have := closesIn_lit ("\\begin".toList ++ '{' :: env.toList) '}'
  simpa [opening, beginTag, braced] using this

theorem closesIn_closing (env : String) : (closing env).ClosesIn ['}'] := by
  have := closesIn_lit ("\\end".toList ++ '{' :: env.toList) '}'
  simpa [closing, endTag, braced] using this

/-! ## Hits -/

theorem Opens.found {p : Pattern} {c : Char} (hp : p.Opens c) {h : Hit} (hf : p.Found h) :
    ∃ w, h.matched = c :: w := by
  obtain ⟨b, hb⟩ := hf
  obtain ⟨w, hw⟩ := hp _ _ hb
  exact ⟨w, List.append_cancel_right hw⟩

theorem Leads.found {p : Pattern} {ws : List Text} (hp : p.Leads ws) {h : Hit} (hf : p.Found h) :
    ∃ w ∈ ws, ∃ m, h.matched = w ++ m := by
  obtain ⟨b, hb⟩ := hf
  obtain ⟨w, hw, m, hm⟩ := hp _ _ hb
  exact ⟨w, hw, m, List.append_cancel_right hm⟩

theorem ClosesIn.found {p : Pattern} {cs : List Char} (hp : p.ClosesIn cs) {h : Hit}
    (hf : p.Found h) : ∃ w, ∃ c ∈ cs, h.matched = w ++ [c] := by
  obtain ⟨b, hb⟩ := hf
  obtain ⟨w, c, hc, hw⟩ := hp _ _ hb
  refine ⟨w, c, hc, ?_⟩
  rw [List.append_cons] at hw
  exact List.append_cancel_right hw

theorem Over.found {P : Char → Prop} {p : Pattern} (hp : p.Over P) {h : Hit} (hf : p.Found h) :
    ∀ c ∈ h.matched, P c := by
  obtain ⟨b, hb⟩ := hf
  obtain ⟨w, hw, hP⟩ := hb.over hp
  rwa [List.append_cancel_right hw]

theorem Frames.found {p : Pattern} {label : String} (hp : p.Frames label) {h : Hit}
    (hf : p.Found h) : ∃ u c d v, h.matched = u ++ c :: h.get label ++ d :: v ∧
      c ∈ ['{', '}', ']'] ∧ d ∈ ['}', '\\'] := by
  obtain ⟨b, hb⟩ := hf
  obtain ⟨u, c, w, d, v, hs, hget, hc, hd⟩ := hp _ _ hb
  have hw : h.get label = w := by rw [Hit.get, hget]; rfl
  exact ⟨u, c, d, v, by rw [hw]; exact List.append_cancel_right hs, hc, hd⟩

end Pattern

end LatexPreview
