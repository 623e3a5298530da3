import Mathlib
import LatexPreview.Convert.MathLift
import LatexPreview.Proofs.Placeholder.Rounds
import LatexPreview.Proofs.Placeholder.Search

/-!
# What is put back

Putting the contents of a table back loses nothing: each of them is put back once, and apart from the
characters of tokens nothing else goes or comes.  Math is put back token by token, each time its token
stands in a page.

* `countP_resolve`: what a resolved text has of some characters is what the text and all contents have
  of them
* `Script.restored` has sources in place of tokens for math
* `restoreTokens_text`: math is put back in this way, where no name stands in the plain text
* `exists_hit_of_token`: a token is found in a text unless its name stands in a gap
* `countP_le_restoreTokens`: no source is lost whose token stands in a page
-/

namespace LatexPreview

open Pattern Script

/-! ## Blocks -/

/-- Characters that stand in no token of the name. -/
def OffTokens (name : Text) (q : Char → Bool) : Prop :=
  ∀ c, c = '_' ∨ c ∈ name ∨ c.isDigit = true → q c = false

theorem OffTokens.countP_eq_zero {name : Text} {q : Char → Bool} (hq : OffTokens name q) {s : Text}
    (hs : ∀ c ∈ s, c = '_' ∨ c ∈ name ∨ c.isDigit = true) : s.countP q = 0 :=
  List.countP_eq_zero.2 fun c hc => by simp [hq c (hs c hc)]

theorem offTokens_of_tokenChar {q : Char → Bool} (hq : ∀ c, TokenChar c → q c = false)
    (kind : TokenKind) : OffTokens kind.name q := by
  rintro c (hlow | hname | hdigit)
  · exact hq c (.inl hlow)
  · exact hq c (Token.tokenChar_of_mem (t := ⟨kind, 0⟩) (by simp [Token.text_eq, hname]))
  · exact hq c (.inr (.inr hdigit))

namespace PlaceholderTable

variable {t : PlaceholderTable} {q : Char → Bool} {used log : List Nat} {hits : List Hit}
  {s tail out : Text}

/-- How often the characters stand in the contents with some numbers. -/
def countStored (t : PlaceholderTable) (q : Char → Bool) (log : List Nat) : Nat :=
  (log.map fun n => (t.contents[n]?.getD []).countP q).sum

theorem countStored_append (log more : List Nat) :
    t.countStored q (log ++ more) = t.countStored q log + t.countStored q more := by
  simp [countStored]

theorem countStored_range : t.countStored q (List.range t.size) = (t.contents.map (·.countP q)).sum := by
  have hall : (List.range t.size).map (fun n => (t.contents[n]?.getD []).countP q) =
      t.contents.map (·.countP q) := by
    refine List.ext_getElem (by simp [size]) fun n hn _ => ?_
    have hlt : n < t.contents.length := by simpa [size] using hn
    simp [hlt]
  rw [countStored, hall]

theorem Puts.countP_eq (hq : OffTokens t.name q)
    (hcuts : (placeholderPattern t.name).CutsInto s hits tail) (h : t.Puts used hits tail log out) :
    out.countP q = s.countP q + t.countStored q log := by
  induction hcuts generalizing used log out with
  | tail s =>
    cases h
    simp [countStored]
  | @hit hit hits tail found later ih =>
    have hzero : hit.matched.countP q = 0 := hq.countP_eq_zero fun c hc => mem_matched found hc
    cases h with
    | kept known rest => simp only [List.countP_append, hzero, ih rest]; omega
    | put matched fresh stored rest =>
      simp only [List.countP_append, hzero, ih rest, countStored, List.map_cons, List.sum_cons, stored,
        Option.getD_some]
      omega

theorem Pass.countP_eq (hq : OffTokens t.name q) (h : t.Pass used s log out) :
    out.countP q = s.countP q + t.countStored q log :=
  Puts.countP_eq hq (cut_cutsInto _ s) h

theorem Resolves.countP_eq (hq : OffTokens t.name q) (h : t.Resolves used s log out) :
    out.countP q = s.countP q + t.countStored q log := by
  induction h with
  | finished pass all => exact pass.countP_eq hq
  | @lost used log more s out pass some later ih =>
    have hzero : (t.unused (log.reverse ++ used)).flatten.countP q = 0 := by
      refine hq.countP_eq_zero fun c hc => ?_
      obtain ⟨token, htoken, hmem⟩ := List.mem_flatten.1 hc
      obtain ⟨n, -, rfl⟩ := List.mem_map.1 htoken
      exact mem_placeholder hmem
    have hpass := pass.countP_eq hq
    rw [ih, List.countP_append, hzero, countStored_append]
    omega
  | changed pass change later ih =>
    rw [ih, pass.countP_eq hq, countStored_append, Nat.add_assoc]

/-- What a resolved text has of some characters is what the text and all contents have of them. -/
theorem countP_resolve (hname : TokenName t.name) (hq : OffTokens t.name q) (s : Text) :
    (t.resolve s).countP q = s.countP q + (t.contents.map (·.countP q)).sum := by
  obtain ⟨log, hresolves, hperm⟩ := t.exists_resolves hname s
  have hsum : t.countStored q log = t.countStored q (List.range t.size) :=
    (hperm.map _).sum_eq
  rw [hresolves.countP_eq hq, hsum, countStored_range]

/-- The content behind a token. -/
theorem lookup_entries (t : PlaceholderTable) (n : Nat) :
    t.entries.lookup (placeholder t.name n) = t.contents[n]? := by
  obtain ⟨name, contents⟩ := t
  have hzip : ∀ k, (((List.range' k contents.length).map (placeholder name)).zip contents).lookup
      (placeholder name (k + n)) = contents[n]? := by
    induction contents generalizing n with
    | nil => simp
    | cons content contents ih =>
      intro k
      rw [List.length_cons, List.range'_succ, List.map_cons, List.zip_cons_cons, List.lookup_cons]
      cases n with
      | zero => simp
      | succ n =>
        have hne : (placeholder name (k + (n + 1)) == placeholder name k) = false := by
          rw [beq_eq_false_iff_ne]
          intro hsame
          exact absurd (placeholder_injective _ hsame) (by omega)
        rw [hne, show k + (n + 1) = k + 1 + n by omega, ih]
        simp
  have hall := hzip 0
  rwa [Nat.zero_add, ← List.range_eq_range'] at hall

end PlaceholderTable

/-! ## Math -/

/-- A glyph with its source in place of a token for math. -/
def Glyph.restored (contents : List (Text × Text)) : Glyph → Text
  | .char c => [c]
  | .token t => if t.kind = .math then (contents.lookup t.text).getD t.text else t.text

namespace Script

/-- The text of a script with sources in place of the tokens for math. -/
def restored (contents : List (Text × Text)) (g : Script) : Text := g.flatMap (Glyph.restored contents)

variable {contents : List (Text × Text)} {g h : Script}

@[simp] theorem restored_append (g h : Script) :
    restored contents (g ++ h) = restored contents g ++ restored contents h := by
  simp [restored]

@[simp] theorem restored_char (c : Char) (g : Script) :
    restored contents (.char c :: g) = c :: restored contents g := rfl

@[simp] theorem restored_ofText (s : Text) : restored contents (ofText s) = s := by
  induction s with
  | nil => rfl
  | cons c s ih => exact congrArg (c :: ·) ih

theorem restored_eq_text (hg : ∀ t ∈ tokens g, t.kind ≠ .math) : restored contents g = text g := by
  induction g with
  | nil => rfl
  | cons x g ih =>
    cases x with
    | char c => exact congrArg (c :: ·) (ih hg)
    | token t =>
      have ht : t.kind ≠ .math := hg t (by simp)
      have hlater := ih fun u hu => hg u (by simp [hu])
      rw [restored, List.flatMap_cons, Glyph.restored, if_neg ht, text_token, ← hlater]
      rfl

/-- A word without low lines that reads over the tokens of a script is also there when they have
been replaced. -/
theorem infix_restored_of_plain {w : Text} (hlow : '_' ∉ w) (h : w <:+: plain g) :
    w <:+: restored contents g := by
  obtain ⟨x, y, hxy⟩ := h
  obtain ⟨gx, g', rfl, hgx, hg'⟩ := List.map_eq_append_iff.1
    (show g.map Glyph.plain = x ++ (w ++ y) by rw [← List.append_assoc]; exact hxy.symm)
  obtain ⟨gw, gy, rfl, hgw, -⟩ := List.map_eq_append_iff.1 hg'
  have hchars : gw = ofText w := by
    rw [← hgw, ofText, List.map_map]
    refine ((List.map_congr_left fun x hx => ?_).trans (List.map_id gw)).symm
    cases x with
    | char c => rfl
    | token t => exact absurd (hgw ▸ List.mem_map_of_mem hx) hlow
  exact ⟨restored contents gx, restored contents gy, by simp [hchars]⟩

/-- A word that has no character of the tokens reads over them if it stands in the text. -/
theorem infix_plain_of_text {w : Text} (hw : w ≠ []) (hlow : '_' ∉ w)
    (htokens : ∀ t ∈ tokens g, ∀ c ∈ w, c ∉ t.text) (h : w <:+: text g) : w <:+: plain g := by
  have hall : ∀ x, w <:+: x ++ text g → w <:+: x ++ plain g := by
    clear h
    induction g with
    | nil => exact fun x hx => hx
    | cons y g ih =>
      intro x hx
      cases y with
      | char c =>
        rw [text_char, List.append_cons] at hx
        rw [plain_char, List.append_cons]
        exact ih (fun t ht => htokens t ht) _ hx
      | token t =>
        have hne : t.text ≠ [] := by simp [t.text_eq]
        rw [text_token, Text.infix_around hw hne (htokens t (by simp))] at hx
        rw [plain_token, Text.infix_append_cons hw hlow]
        exact hx.imp_right fun hlater => ih (fun u hu => htokens u (by simp [hu])) [] hlater
  exact hall [] h

end Script

/-- Math is put back token by token. -/
theorem restoreTokens_text {g : Script} (hg : ¬ Draft.mathName <:+: plain g)
    (contents : List (Text × Text)) : restoreTokens contents (text g) = restored contents g := by
  have hall : ∀ {g hits tail}, TokenCut .math g hits tail → (Cut.mk hits tail).replace
      (fun h => (contents.lookup h.matched).getD h.matched) = restored contents g := by
    intro g hits tail hc
    induction hc with
    | tail hnone =>
      rw [restored_eq_text hnone]
      rfl
    | @hit ga gb n h hits tail hnone hgap hmatched _ ih =>
      have htoken : restored contents (.token ⟨.math, n⟩ :: gb) =
          (contents.lookup h.matched).getD h.matched ++ restored contents gb := by
        rw [hmatched]
        rfl
      rw [restored_append, restored_eq_text hnone, htoken, ← hgap, ← ih]
      simp [Cut.replace]
  have hcut : TokenCut .math g ((placeholderPattern Draft.mathName).cut (text g)).hits
      ((placeholderPattern Draft.mathName).cut (text g)).tail := cut_tokenCut hg
  exact hall hcut

/-! ## Where names stand -/

section Searching

variable {name s tail : Text} {hits : List Hit}

/-- A name does not reach over a low line. -/
theorem TokenName.beside_low (hname : TokenName name) {u v x z : Text}
    (h : u ++ name ++ v = x ++ '_' :: z) :
    (∃ y, x = u ++ name ++ y ∧ v = y ++ '_' :: z) ∨ ∃ u', z = u' ++ name ++ v := by
  rcases append_eq_append_cons h with hbehind | ⟨r, hu, hz⟩
  · exact .inl hbehind
  · rcases append_eq_append_cons hu with ⟨y, -, hin⟩ | ⟨w, -, hr⟩
    · exact absurd (by rw [hin]; simp) hname.low
    · exact .inr ⟨w, by rw [hz, hr]⟩

/-- A name in a token and what follows it is the name of the token, or it stands behind the token. -/
theorem TokenName.of_token_or_behind (hname : TokenName name) (hletter : ∃ c ∈ name, c.isDigit = false)
    {ds u v r : Text} (hdigits : ∀ c ∈ ds, c.isDigit = true)
    (h : u ++ name ++ v = '_' :: (name ++ '_' :: (ds ++ '_' :: '_' :: r))) :
    v = '_' :: (ds ++ '_' :: '_' :: r) ∨ ∃ u', r = u' ++ name ++ v := by
  have hin : ∀ {u x y : Text}, x = u ++ name ++ y → name <:+: x := fun hx => ⟨_, _, hx.symm⟩
  have hnil : ¬ name <:+: [] := fun hi => hname.nonempty (List.infix_nil.1 hi)
  rcases hname.beside_low (x := []) h with ⟨y, hnone, -⟩ | ⟨u₁, h₁⟩
  · exact absurd (hin hnone) hnil
  rcases hname.beside_low h₁.symm with ⟨y, hwhole, hv⟩ | ⟨u₂, h₂⟩
  · have hlength := congrArg List.length hwhole
    simp only [List.length_append] at hlength
    obtain rfl : y = [] := List.length_eq_zero_iff.1 (by omega)
    exact .inl hv
  rcases hname.beside_low h₂.symm with ⟨y, hdigit, -⟩ | ⟨u₃, h₃⟩
  · obtain ⟨c, hc, hnot⟩ := hletter
    have hmem : c ∈ ds := (hin hdigit).subset hc
    exact absurd (hdigits c hmem) (by simp [hnot])
  rcases hname.beside_low (x := []) h₃.symm with ⟨y, hnone, -⟩ | hbehind
  · exact absurd (hin hnone) hnil
  · exact .inr hbehind

/-- A name that stands in no gap is the one of a match. -/
theorem exists_hit_of_name (hname : TokenName name) (hletter : ∃ c ∈ name, c.isDigit = false)
    (hcuts : (placeholderPattern name).CutsInto s hits tail)
    (hgaps : ∀ h ∈ hits, ¬ name <:+: h.gap) (htail : ¬ name <:+: tail) {u v : Text}
    (hs : s = u ++ name ++ v) : ∃ h ∈ hits, ∃ ds y, '_' ∉ ds ∧
      h.matched = tokenFront name ++ (ds ++ "__".toList) ∧ v = '_' :: (ds ++ '_' :: y) := by
  induction hcuts generalizing u with
  | tail s => exact absurd ⟨u, v, hs.symm⟩ htail
  | @hit h hits tail found later ih =>
    obtain ⟨ds, -, hdigits, hmatched⟩ := found_digits found
    have hwhole : u ++ name ++ v =
        h.gap ++ '_' :: '_' :: (name ++ '_' :: (ds ++ '_' :: '_' :: h.stop.rest)) := by
      rw [← hs, hmatched]
      simp
    rcases hname.beside_low hwhole with ⟨y, hgap, -⟩ | ⟨u', hbehind⟩
    · exact absurd ⟨u, y, hgap.symm⟩ (hgaps h (by simp))
    rcases hname.of_token_or_behind hletter hdigits hbehind.symm with hv | ⟨u'', hrest⟩
    · exact ⟨h, by simp, ds, _, fun hmem => absurd (hdigits _ hmem) (by decide),
        by simp [hmatched, tokenFront], hv⟩
    · obtain ⟨g, hg, hfound⟩ := ih (fun g hg => hgaps g (by simp [hg])) htail hrest
      exact ⟨g, by simp [hg], hfound⟩

/-- A token that stands in a text is found, if its name stands in no gap. -/
theorem exists_hit_of_token (hname : TokenName name) (hletter : ∃ c ∈ name, c.isDigit = false)
    (hcuts : (placeholderPattern name).CutsInto s hits tail)
    (hgaps : ∀ h ∈ hits, ¬ name <:+: h.gap) (htail : ¬ name <:+: tail) {n : Nat}
    (hn : placeholder name n <:+: s) : ∃ h ∈ hits, h.matched = placeholder name n := by
  obtain ⟨x, y, hs⟩ := hn
  have hplace : s = (x ++ "__".toList) ++ name ++ ('_' :: (Text.ofNat n ++ '_' :: '_' :: y)) := by
    rw [← hs]
    simp [placeholder]
  obtain ⟨h, hh, ds, z, hlow, hmatched, hv⟩ := exists_hit_of_name hname hletter hcuts hgaps htail hplace
  have hdigits : '_' ∉ Text.ofNat n := fun hmem => absurd (isDigit_of_mem_ofNat hmem) (by decide)
  obtain ⟨rfl, -⟩ := eq_of_append_cons_eq hdigits hlow (List.cons.inj hv).2
  exact ⟨h, hh, by rw [hmatched, placeholder_eq_front]⟩

end Searching

section Counting

variable {d : PlaceholderTable} {s : Text} {q : Char → Bool} {contents : List (Text × Text)}

/-- What a restored text has of some characters, token by token. -/
theorem countP_restoreTokens (hq : OffTokens Draft.mathName q) (contents : List (Text × Text))
    (s : Text) : (restoreTokens contents s).countP q = s.countP q +
      ((((placeholderPattern Draft.mathName).cut s).hits.map (·.matched)).map fun token =>
        ((contents.lookup token).getD []).countP q).sum := by
  have hall : ∀ {s hits tail}, (placeholderPattern Draft.mathName).CutsInto s hits tail →
      ((Cut.mk hits tail).replace fun h => (contents.lookup h.matched).getD h.matched).countP q =
        s.countP q + ((hits.map (·.matched)).map fun token =>
          ((contents.lookup token).getD []).countP q).sum := by
    intro s hits tail hcuts
    induction hcuts with
    | tail s => simp [Cut.replace]
    | @hit h hits tail found _ ih =>
      have hzero : h.matched.countP q = 0 := hq.countP_eq_zero fun c hc => mem_matched found hc
      have hone : ((contents.lookup h.matched).getD h.matched).countP q =
          ((contents.lookup h.matched).getD []).countP q := by
        cases contents.lookup h.matched with
        | none => exact hzero
        | some source => rfl
      simp only [Cut.replace, List.flatMap_cons, List.countP_append, List.map_cons, List.sum_cons,
        hone, hzero] at ih ⊢
      omega
  exact hall (cut_cutsInto _ s)

/-- If no name is left in a restored text, then each token of the text has been found, and its source
put in place of it. -/
theorem exists_hit_of_restored (hnone : ¬ Draft.mathName <:+: restoreTokens contents s) {n : Nat}
    (hn : placeholder Draft.mathName n <:+: s) :
    placeholder Draft.mathName n ∈ ((placeholderPattern Draft.mathName).cut s).hits.map (·.matched) ∧
      ∀ source, contents.lookup (placeholder Draft.mathName n) = some source →
        source <:+: restoreTokens contents s := by
  let source : Hit → Text := fun h => (contents.lookup h.matched).getD h.matched
  have hparts : ∀ h ∈ ((placeholderPattern Draft.mathName).cut s).hits,
      h.gap ++ source h <:+: restoreTokens contents s := by
    intro h hh
    have hpart := List.infix_of_mem_flatten (List.mem_map_of_mem (f := fun h => h.gap ++ source h) hh)
    exact hpart.trans (List.prefix_append _ _).isInfix
  have hgaps : ∀ h ∈ ((placeholderPattern Draft.mathName).cut s).hits, ¬ Draft.mathName <:+: h.gap :=
    fun h hh hi => hnone ((hi.trans (List.prefix_append _ _).isInfix).trans (hparts h hh))
  have htail : ¬ Draft.mathName <:+: ((placeholderPattern Draft.mathName).cut s).tail :=
    fun hi => hnone (hi.trans (List.suffix_append _ _).isInfix)
  obtain ⟨h, hh, hmatched⟩ := exists_hit_of_token (by decide) ⟨'M', by decide, by decide⟩
    (cut_cutsInto _ s) hgaps htail hn
  refine ⟨List.mem_map.2 ⟨h, hh, hmatched⟩, fun content hcontent => ?_⟩
  have hshown : source h = content := by simp [source, hmatched, hcontent]
  exact hshown ▸ (List.suffix_append _ _).isInfix.trans (hparts h hh)

/-- No source is lost when the tokens of all of them stand in a text and no name is left. -/
theorem countP_le_restoreTokens (hq : OffTokens Draft.mathName q) (hname : d.name = Draft.mathName)
    (hall : ∀ n < d.size, placeholder Draft.mathName n <:+: s)
    (hnone : ¬ Draft.mathName <:+: restoreTokens d.entries s) :
    s.countP q + (d.contents.map (·.countP q)).sum ≤ (restoreTokens d.entries s).countP q := by
  let f : Text → Nat := fun token => ((d.entries.lookup token).getD []).countP q
  have hsub : ((List.range d.size).map (placeholder Draft.mathName)).Subperm
      (((placeholderPattern Draft.mathName).cut s).hits.map (·.matched)) := by
    refine List.subperm_of_subset (List.nodup_range.map (placeholder_injective _)) ?_
    intro token htoken
    obtain ⟨n, hn, rfl⟩ := List.mem_map.1 htoken
    exact (exists_hit_of_restored hnone (hall n (List.mem_range.1 hn))).1
  have hsum : (((List.range d.size).map (placeholder Draft.mathName)).map f).sum ≤
      ((((placeholderPattern Draft.mathName).cut s).hits.map (·.matched)).map f).sum := by
    obtain ⟨l, hperm, hsublist⟩ := hsub
    rw [← (hperm.map f).sum_eq]
    exact (hsublist.map f).sum_le_sum fun _ _ => Nat.zero_le _
  have hsources : ((List.range d.size).map (placeholder Draft.mathName)).map f =
      (List.range d.size).map fun n => (d.contents[n]?.getD []).countP q := by
    rw [List.map_map]
    refine List.map_congr_left fun n _ => ?_
    have hlookup : d.entries.lookup (placeholder Draft.mathName n) = d.contents[n]? := by
      rw [← d.lookup_entries, hname]
    simp [f, hlookup]
  have hstored : ((List.range d.size).map fun n => (d.contents[n]?.getD []).countP q).sum =
      (d.contents.map (·.countP q)).sum := PlaceholderTable.countStored_range
  have hcount : (restoreTokens d.entries s).countP q = s.countP q +
      ((((placeholderPattern Draft.mathName).cut s).hits.map (·.matched)).map f).sum :=
    countP_restoreTokens hq d.entries s
  rw [hsources, hstored] at hsum
  omega

end Counting

end LatexPreview
