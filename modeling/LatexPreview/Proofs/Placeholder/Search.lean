import Mathlib
import LatexPreview.Proofs.Placeholder.Script

/-!
# Searching scripts

In a script whose plain text holds no name of a token, such as a sealed one, nothing looks like a
token but the tokens, so that a search for tokens finds exactly these, and each of them apart.

* `Severs`: a pattern whose matches start and end between tokens
* `CutsInto.pieces`, `CutsInto.gaps`: a text cut at such a pattern is a row of scripts
* `text_eq_append_token`: what looks like a token in a script whose plain text holds no name is one
* `TokenCut`, `cut_tokenCut`: a search finds the tokens of its kind, and no more
* `countP_hits`, `occursIn_text`, `infix_text`: searching the text of a script looks at its tokens
-/

namespace LatexPreview

open Script

namespace Pattern

/-! ## Patterns that spare tokens -/

/-- Matches of the pattern start and end between tokens. -/
def Severs (p : Pattern) : Prop :=
  ∀ g front h, Sealed (plain g) → p.Found h → text g = front ++ h.matched ++ h.stop.rest →
    ∃ gf gm gr, g = gf ++ gm ++ gr ∧ text gf = front ∧ text gm = h.matched ∧ text gr = h.stop.rest

/-- Matches of the pattern start and end with characters of no token. -/
def Sharp (p : Pattern) : Prop :=
  (∃ c, ¬ TokenChar c ∧ p.Opens c) ∧ ∃ cs, (∀ c ∈ cs, ¬ TokenChar c) ∧ p.ClosesIn cs

theorem Sharp.severs {p : Pattern} (hp : p.Sharp) : p.Severs := by
  obtain ⟨⟨c, hc, hopens⟩, cs, hcs, hcloses⟩ := hp
  intro g front h _ hf htext
  obtain ⟨x, hfirst⟩ := hopens.found hf
  obtain ⟨y, e, he, hlast⟩ := hcloses.found hf
  obtain ⟨gf, gm, gr, hg, hgf, hgm, hgr, -, -⟩ := split_part htext hfirst hc hlast (hcs e he)
  exact ⟨gf, gm, gr, hg, hgf, hgm, hgr⟩

theorem Severs.alt {p q : Pattern} (hp : p.Severs) (hq : q.Severs) : (alt p q).Severs := by
  rintro g front h hg ⟨b, hf | hf⟩ htext
  · exact hp g front h hg ⟨b, hf⟩ htext
  · exact hq g front h hg ⟨b, hf⟩ htext

/-- The gaps and matches of a cut text are scripts, which make up the whole. -/
theorem CutsInto.pieces {p : Pattern} (hp : p.Severs) {s : Text} {hits : List Hit} {tail : Text}
    (hc : p.CutsInto s hits tail) {g : Script} (hg : Sealed (plain g)) (hs : text g = s) :
    ∃ gs : List Script, (hits.flatMap fun h => [h.gap, h.matched]) ++ [tail] = gs.map text ∧
      gs.flatten = g := by
  induction hc generalizing g with
  | tail s => exact ⟨[g], by simp [hs], by simp⟩
  | @hit h hits tail hf _ ih =>
    obtain ⟨gf, gm, gr, rfl, hgf, hgm, hgr⟩ := hp g h.gap h hg hf hs
    obtain ⟨gs, hparts, rfl⟩ := ih (hg.mono (plain_isInfix (List.suffix_append _ gr).isInfix)) hgr
    exact ⟨gf :: gm :: gs, by simp [hgf, hgm, hparts], by simp⟩

/-- The gaps alone are scripts that share the tokens of the whole among them. -/
theorem CutsInto.gaps {p : Pattern} (hp : p.Severs) {s : Text} {hits : List Hit} {tail : Text}
    (hc : p.CutsInto s hits tail) {g : Script} (hg : Sealed (plain g)) (hs : text g = s) :
    ∃ gs : List Script, hits.map (·.gap) ++ [tail] = gs.map text ∧ gs.flatten.Sublist g ∧
      ∀ x ∈ gs, x <:+: g := by
  induction hc generalizing g with
  | tail s => exact ⟨[g], by simp [hs], by simp, by simp⟩
  | @hit h hits tail hf _ ih =>
    obtain ⟨gf, gm, gr, rfl, hgf, -, hgr⟩ := hp g h.gap h hg hf hs
    have hrest : gr <:+: gf ++ gm ++ gr := (List.suffix_append _ gr).isInfix
    obtain ⟨gs, hparts, hsub, hwithin⟩ := ih (hg.mono (plain_isInfix hrest)) hgr
    refine ⟨gf :: gs, by simp [hgf, hparts], ?_, ?_⟩
    · rw [List.flatten_cons, List.append_assoc]
      exact (List.Sublist.refl gf).append (hsub.trans (List.sublist_append_right gm gr))
    · intro x hx
      rcases List.mem_cons.1 hx with rfl | hx
      · exact ⟨[], gm ++ gr, by simp⟩
      · exact (hwithin x hx).trans hrest

theorem split_pieces {p : Pattern} (hp : p.Severs) {g : Script} (hg : Sealed (plain g)) :
    ∃ gs : List Script, p.split (text g) = gs.map text ∧ gs.flatten.Sublist g ∧
      ∀ x ∈ gs, x <:+: g :=
  (p.cut_cutsInto (text g)).gaps hp hg rfl

end Pattern

/-! ## Tokens in sealed scripts -/

/-- A glyph whose text starts with another character than a token is this character. -/
theorem text_eq_cons {g : Script} {c : Char} {s : Text} (hc : c ≠ '_') (h : text g = c :: s) :
    ∃ g', g = .char c :: g' ∧ text g' = s := by
  cases g with
  | nil => exact absurd h (by simp)
  | cons x g =>
    cases x with
    | char d =>
      obtain ⟨rfl, hs⟩ := List.cons.inj h
      exact ⟨g, rfl, hs⟩
    | token t =>
      rw [text_token, t.text_eq] at h
      exact absurd (List.cons.inj h).1.symm hc

/-- The first letter of a name stands in a token of that name only, and only once. -/
theorem Token.text_eq_append_cons {t : Token} {kind : TokenKind} {c : Char} {m u v : Text}
    (hname : kind.name = c :: m) (h : t.text = u ++ c :: v) :
    t.kind = kind ∧ u = "__".toList ∧ v = m ++ '_' :: Text.ofNat t.number ++ "__".toList := by
  obtain ⟨k, n⟩ := t
  have hinitial : c ≠ '_' ∧ c.isDigit = false ∧ c ∉ k.name.tail ∧ (c ∈ k.name → k = kind) := by
    cases kind <;> obtain ⟨rfl, -⟩ := List.cons.inj hname <;> cases k <;>
      exact ⟨by decide, by decide, by decide, by decide⟩
  obtain ⟨hlow, hdigit, htail, hkind⟩ := hinitial
  have hlows : c ∉ "__".toList := by simp [hlow]
  have hnumber : c ∉ '_' :: Text.ofNat n ++ "__".toList := by
    simp only [List.mem_append, List.mem_cons, not_or]
    refine ⟨⟨hlow, fun hc => ?_⟩, hlows⟩
    exact absurd (isDigit_of_mem_ofNat hc) (by simp [hdigit])
  have hsplit : "__".toList ++ (k.name ++ ('_' :: Text.ofNat n ++ "__".toList)) = u ++ c :: v := by
    rw [← h]
    simp [Token.text, placeholder]
  rcases append_eq_append_cons hsplit with ⟨u', rfl, hrest⟩ | ⟨v', hv, -⟩
  · rcases append_eq_append_cons hrest with ⟨u'', -, hlast⟩ | ⟨v', hv', hv⟩
    · exact absurd (by rw [hlast]; simp) hnumber
    · obtain rfl := hkind (by simp [hv'])
      cases u' with
      | nil =>
        obtain rfl : m = v' := by simpa [hname] using hv'
        exact ⟨rfl, by simp, by simpa using hv⟩
      | cons d u' => exact absurd (by simp [hv']) htail
  · exact absurd (by rw [hv]; simp) hlows

/-- No name in a token stands in a sealed text. -/
theorem Sealed.not_name {s : Text} (h : Sealed s) (kind : TokenKind) : ¬ kind.name <:+: s := by
  cases kind
  · exact h _ (.inl rfl)
  · exact h _ (.inr (.inl rfl))

/-- Where no name stands in the plain text, what reads like one stands in a token. -/
theorem text_eq_append_name {g : Script} {kind : TokenKind} (hg : ¬ kind.name <:+: plain g)
    {a b : Text} (h : text g = a ++ kind.name ++ b) :
    ∃ ga n gb, g = ga ++ .token ⟨kind, n⟩ :: gb ∧ a = text ga ++ "__".toList ∧
      b = '_' :: Text.ofNat n ++ "__".toList ++ text gb := by
  obtain ⟨c, d, e, hname, hd, he⟩ : ∃ c d e, kind.name = [c, d, e] ∧ d ≠ '_' ∧ e ≠ '_' := by
    cases kind
    · exact ⟨'M', 'T', 'H', rfl, by decide, by decide⟩
    · exact ⟨'B', 'L', 'K', rfl, by decide, by decide⟩
  have hfirst : text g = a ++ c :: (d :: e :: b) := by simp [h, hname]
  rcases LatexPreview.text_eq_append_cons hfirst with
    ⟨ga, gb, rfl, -, hgb⟩ | ⟨ga, t, gb, u, v, rfl, ht, rfl, hv⟩
  · -- Letter by letter, the name would be a part of the plain text.
    obtain ⟨g₁, rfl, hg₁⟩ := text_eq_cons hd hgb
    obtain ⟨g₂, rfl, -⟩ := text_eq_cons he hg₁
    exact absurd ⟨plain ga, plain g₂, by simp [hname]⟩ hg
  · obtain ⟨rfl, rfl, rfl⟩ := Token.text_eq_append_cons hname ht
    refine ⟨ga, t.number, gb, rfl, rfl, ?_⟩
    simpa using hv

/-- Where no name stands in the plain text, what looks like a token is one. -/
theorem text_eq_append_token {g : Script} {kind : TokenKind} (hg : ¬ kind.name <:+: plain g)
    {front ds rest : Text} (hds : '_' ∉ ds)
    (h : text g = front ++ ("__".toList ++ kind.name ++ '_' :: ds ++ "__".toList) ++ rest) :
    ∃ ga n gb, g = ga ++ .token ⟨kind, n⟩ :: gb ∧ text ga = front ∧ ds = Text.ofNat n ∧
      text gb = rest := by
  have hname : text g = (front ++ "__".toList) ++ kind.name ++
      ('_' :: ds ++ "__".toList ++ rest) := by
    rw [h]
    simp
  obtain ⟨ga, n, gb, rfl, hfront, hrest⟩ := text_eq_append_name hg hname
  have hn : '_' ∉ Text.ofNat n := fun hmem => absurd (isDigit_of_mem_ofNat hmem) (by decide)
  have hdigits : ds ++ '_' :: ('_' :: rest) = Text.ofNat n ++ '_' :: ('_' :: text gb) := by
    simpa using hrest
  obtain ⟨hnumber, hgb⟩ := eq_of_append_cons_eq hds hn hdigits
  exact ⟨ga, n, gb, rfl, (List.append_cancel_right hfront).symm, hnumber, by simpa using hgb.symm⟩

theorem not_mem_ofNat (n : Nat) : '_' ∉ Text.ofNat n :=
  fun hmem => absurd (isDigit_of_mem_ofNat hmem) (by decide)

theorem exists_of_mem_tokens {g : Script} {t : Token} (h : t ∈ tokens g) :
    ∃ ga gb, g = ga ++ .token t :: gb := by
  obtain ⟨x, hx, hxt⟩ := List.mem_filterMap.1 h
  cases x with
  | char c => exact absurd hxt (by simp [Glyph.token?])
  | token s =>
    obtain rfl := Option.some.inj hxt
    exact List.append_of_mem hx

theorem mem_tokens_of_isInfix {g : Script} {t : Token} (hg : ¬ t.kind.name <:+: plain g)
    (h : t.text <:+: text g) : t ∈ tokens g := by
  obtain ⟨front, rest, h⟩ := h
  obtain ⟨ga, n, gb, rfl, -, hn, -⟩ :=
    text_eq_append_token hg (not_mem_ofNat t.number) (h.symm.trans rfl)
  obtain rfl := ofNat_injective hn
  simp

theorem infix_text_of_mem {g : Script} {t : Token} (h : t ∈ tokens g) : t.text <:+: text g := by
  obtain ⟨ga, gb, rfl⟩ := exists_of_mem_tokens h
  exact ⟨text ga, text gb, by simp⟩

theorem infix_text {g : Script} (hg : Sealed (plain g)) (t : Token) :
    t.text <:+: text g ↔ t ∈ tokens g :=
  ⟨mem_tokens_of_isInfix (hg.not_name t.kind), infix_text_of_mem⟩

/-! ## Matches of tokens -/

namespace Pattern

theorem matches_digits {name : Text} {s t : Cursor} (h : (placeholderPattern name).Matches s t) :
    ∃ ds, ds ≠ [] ∧ (∀ c ∈ ds, c.isDigit = true) ∧
      s.rest = "__".toList ++ name ++ '_' :: ds ++ "__".toList ++ t.rest := by
  obtain ⟨m, ⟨l, hl, hm⟩, ht⟩ := h
  have hdigits : (many1 (one Char.isDigit)).Over (·.isDigit = true) :=
    ⟨fun _ hc => hc, fun _ hc => hc⟩
  obtain ⟨ds, hds, hall⟩ := hm.over hdigits
  obtain ⟨k, ⟨c, r, hfirst, -, rfl⟩, hmore⟩ := hm
  obtain ⟨w, hw⟩ := hmore.exists_append
  refine ⟨ds, ?_, hall, ?_⟩
  · rintro rfl
    have hlength := congrArg List.length (hfirst.symm.trans hds)
    have hrest := congrArg List.length hw
    simp [Cursor.next] at hlength hrest
    omega
  · rw [matches_lit hl, hds, matches_lit ht]
    simp

theorem matches_placeholder {name : Text} {s t : Cursor}
    (h : (placeholderPattern name).Matches s t) :
    ∃ ds, ds ≠ [] ∧ '_' ∉ ds ∧
      s.rest = "__".toList ++ name ++ '_' :: ds ++ "__".toList ++ t.rest := by
  obtain ⟨ds, hne, hdigits, hs⟩ := matches_digits h
  exact ⟨ds, hne, fun hmem => absurd (hdigits _ hmem) (by decide), hs⟩

theorem found_digits {name : Text} {h : Hit} (hf : (placeholderPattern name).Found h) :
    ∃ ds, ds ≠ [] ∧ (∀ c ∈ ds, c.isDigit = true) ∧
      h.matched = "__".toList ++ name ++ '_' :: ds ++ "__".toList := by
  obtain ⟨b, hm⟩ := hf
  obtain ⟨ds, hne, hdigits, hrest⟩ := matches_digits hm
  exact ⟨ds, hne, hdigits, List.append_cancel_right hrest⟩

theorem found_placeholder {name : Text} {h : Hit} (hf : (placeholderPattern name).Found h) :
    ∃ ds, ds ≠ [] ∧ '_' ∉ ds ∧ h.matched = "__".toList ++ name ++ '_' :: ds ++ "__".toList := by
  obtain ⟨ds, hne, hdigits, hmatched⟩ := found_digits hf
  exact ⟨ds, hne, fun hmem => absurd (hdigits _ hmem) (by decide), hmatched⟩

/-- What a search finds in a script is a token, if no name stands in its plain text. -/
theorem token_of_found {g : Script} {kind : TokenKind} (hg : ¬ kind.name <:+: plain g) {h : Hit}
    (hf : (placeholderPattern kind.name).Found h) {front : Text}
    (htext : text g = front ++ h.matched ++ h.stop.rest) :
    ∃ ga n gb, g = ga ++ .token ⟨kind, n⟩ :: gb ∧ text ga = front ∧
      h.matched = Token.text ⟨kind, n⟩ ∧ text gb = h.stop.rest := by
  obtain ⟨ds, -, hds, hmatched⟩ := found_placeholder hf
  rw [hmatched] at htext
  obtain ⟨ga, n, gb, hg, hga, rfl, hgb⟩ := text_eq_append_token hg hds htext
  exact ⟨ga, n, gb, hg, hga, hmatched, hgb⟩

theorem severs_placeholder (kind : TokenKind) : (placeholderPattern kind.name).Severs := by
  intro g front h hg hf htext
  obtain ⟨ga, n, gb, rfl, hga, hmatched, hgb⟩ := token_of_found (hg.not_name kind) hf htext
  exact ⟨ga, [.token ⟨kind, n⟩], gb, by simp, hga, by simp [hmatched], hgb⟩

/-! ## Finding tokens -/

theorem steady_placeholder (name : Text) : (placeholderPattern name).Steady :=
  ⟨⟨steady_lit _, trivial, trivial, consumes_one _⟩, steady_lit _⟩

/-- The pattern finds whatever looks like a token. -/
theorem at?_digits (name : Text) {ds : Text} (hne : ds ≠ [])
    (hdigits : ∀ c ∈ ds, c.isDigit = true) (b : Option Char) (r : Text) :
    ((placeholderPattern name).at? b
      ("__".toList ++ name ++ '_' :: ds ++ "__".toList ++ r)).isSome = true := by
  obtain ⟨d, ds, rfl⟩ := List.exists_cons_of_ne_nil hne
  obtain ⟨t₁, h₁, hr₁⟩ := exists_matches_lit (w := "__".toList ++ name ++ ['_'])
    (s := ⟨b, "__".toList ++ name ++ '_' :: d :: ds ++ "__".toList ++ r, []⟩)
    (r := d :: (ds ++ ("__".toList ++ r))) (by simp)
  have hmore : ∀ c ∈ ds, c.isDigit = true := fun c hc => hdigits c (by simp [hc])
  obtain ⟨t₂, h₂, hr₂⟩ := exists_matches_many (s := t₁.next d (ds ++ ("__".toList ++ r))) hmore rfl
  obtain ⟨t₃, h₃, -⟩ := exists_matches_lit hr₂
  have hone : (one Char.isDigit).Matches t₁ (t₁.next d (ds ++ ("__".toList ++ r))) :=
    ⟨d, _, hr₁, hdigits d (by simp), rfl⟩
  exact at?_isSome (steady_placeholder name) ⟨t₂, ⟨t₁, h₁, _, hone, h₂⟩, h₃⟩

/-- A token matches. -/
theorem at?_placeholder (name : Text) (n : Nat) (b : Option Char) (r : Text) :
    ((placeholderPattern name).at? b (placeholder name n ++ r)).isSome = true :=
  at?_digits name (Nat.toDigits_ne_nil (n := n) (b := 10)) (fun _ => isDigit_of_mem_ofNat) b r

/-- The hits of a search are the tokens of one kind, and between them there is none. -/
inductive TokenCut (kind : TokenKind) : Script → List Hit → Text → Prop
  | tail {g : Script} (none : ∀ t ∈ tokens g, t.kind ≠ kind) : TokenCut kind g [] (text g)
  | hit {ga gb : Script} {n : Nat} {h : Hit} {hits : List Hit} {tail : Text}
      (none : ∀ t ∈ tokens ga, t.kind ≠ kind) (gap : h.gap = text ga)
      (matched : h.matched = Token.text ⟨kind, n⟩) (later : TokenCut kind gb hits tail) :
      TokenCut kind (ga ++ .token ⟨kind, n⟩ :: gb) (h :: hits) tail

theorem cutAtMost_tokenCut {kind : TokenKind} {g : Script} (hg : ¬ kind.name <:+: plain g) {n : Nat}
    (hn : (text g).length ≤ n) (b : Option Char) :
    TokenCut kind g ((placeholderPattern kind.name).cutAtMost n b (text g)).hits
      ((placeholderPattern kind.name).cutAtMost n b (text g)).tail := by
  induction n generalizing g b with
  | zero =>
    refine .tail fun t ht => ?_
    obtain ⟨ga, gb, rfl⟩ := exists_of_mem_tokens ht
    simp [t.text_eq] at hn
  | succ n ih =>
    rw [cutAtMost]
    split
    · rename_i hnone
      refine .tail fun t ht hkind => ?_
      obtain ⟨ga, gb, rfl⟩ := exists_of_mem_tokens ht
      have hat := first?_eq_none hnone (text_append ga (.token t :: gb))
      have hsome := at?_placeholder kind.name t.number ((text ga).getLast?.or b) (text gb)
      rw [← hkind] at hat hsome
      exact absurd (hat ▸ hsome : Option.isSome none = true) (by simp)
    · rename_i h hf
      obtain ⟨htext, hat, hleft⟩ := first?_eq_some hf
      have hfound : (placeholderPattern kind.name).Found h := ⟨_, matches_of_at? hat⟩
      obtain ⟨ga, m, gb, rfl, hga, hmatched, hgb⟩ := token_of_found hg hfound htext
      have hlater : ¬ kind.name <:+: plain gb := by
        refine fun hi => hg (hi.trans (plain_isInfix ?_))
        exact ⟨ga ++ [.token ⟨kind, m⟩], [], by simp⟩
      have hlength : (text gb).length ≤ n := by
        simp [Token.text_eq] at hn
        omega
      have := TokenCut.hit (n := m) (h := h) ?_ hga.symm hmatched (ih hlater hlength h.stop.before)
      · rwa [hgb] at this
      · -- A token further to the left would have been found first.
        intro t ht hkind
        obtain ⟨x, y, rfl⟩ := exists_of_mem_tokens ht
        have hnone := hleft (text x) (t.text ++ text (y ++ .token ⟨kind, m⟩ :: gb)) (by simp)
          (by simp [← hga, t.text_eq])
        have hsome := at?_placeholder kind.name t.number ((text x).getLast?.or b)
          (text (y ++ .token ⟨kind, m⟩ :: gb))
        rw [← hkind] at hnone hsome
        exact absurd (hnone ▸ hsome : Option.isSome none = true) (by simp)

theorem cut_tokenCut {g : Script} {kind : TokenKind} (hg : ¬ kind.name <:+: plain g) :
    TokenCut kind g ((placeholderPattern kind.name).cut (text g)).hits
      ((placeholderPattern kind.name).cut (text g)).tail :=
  cutAtMost_tokenCut hg le_rfl none

/-- A search finds the tokens of its kind, each as often as it stands in the script. -/
theorem countP_hits {g : Script} (hg : Sealed (plain g)) (t : Token) :
    ((placeholderPattern t.kind.name).cut (text g)).hits.countP (·.matched == t.text) =
      (tokens g).count t := by
  have hcount : ∀ {g hits tail}, TokenCut t.kind g hits tail →
      hits.countP (·.matched == t.text) = (tokens g).count t := by
    intro g hits tail hc
    induction hc with
    | tail hnone => exact (List.count_eq_zero.2 fun hmem => hnone t hmem rfl).symm
    | @hit ga gb n h hits tail hnone _ hmatched _ ih =>
      have hga : (tokens ga).count t = 0 := List.count_eq_zero.2 fun hmem => hnone t hmem rfl
      have hsame : (h.matched == t.text) = ((⟨t.kind, n⟩ : Token) == t) := by
        rw [hmatched, Bool.eq_iff_iff, beq_iff_eq, beq_iff_eq]
        exact Token.text_injective.eq_iff
      rw [List.countP_cons, ih, tokens_append, tokens_token, List.count_append, hga,
        List.count_cons, hsame, Nat.zero_add]
  exact hcount (cut_tokenCut (hg.not_name t.kind))

theorem occursIn_text {g : Script} (hg : Sealed (plain g)) (kind : TokenKind) :
    (placeholderPattern kind.name).occursIn (text g) = true ↔ ∃ t ∈ tokens g, t.kind = kind := by
  constructor
  · intro h
    obtain ⟨hit, hf⟩ := Option.isSome_iff_exists.1 h
    obtain ⟨htext, hfound⟩ := find?_eq_some hf
    obtain ⟨ga, n, gb, rfl, -⟩ := token_of_found (hg.not_name kind) hfound htext
    exact ⟨⟨kind, n⟩, by simp, rfl⟩
  · rintro ⟨t, ht, rfl⟩
    obtain ⟨ga, gb, rfl⟩ := exists_of_mem_tokens ht
    rw [occursIn, Option.isSome_iff_ne_none]
    intro hnone
    have hat := first?_eq_none hnone (text_append ga (.token t :: gb))
    have hsome := at?_placeholder t.kind.name t.number ((text ga).getLast?.or none) (text gb)
    exact absurd (hat ▸ hsome : Option.isSome none = true) (by simp)

end Pattern

end LatexPreview
