import Mathlib
import LatexPreview.Proofs.Lists.Tree
import LatexPreview.Proofs.Pattern.Trim

/-!
# Environments within each other

Documents in which quotations, lists and tables stand within each other, in any order and to any
depth.  What else is written in them is plain text, the commands in front of the items of a list
and those between the rows of a table.

* `Enclosure` is an environment, without what is in it
* `EnvTree` is what is written at a place of a document, `EnvTree.text` its source
* `EnvTree.Separate`: quotations hold no environments, and tables hold only quotations
* `commands_text`: the names behind the backslashes of a source
* `EnvTree.exists_trim`: blanks around a document do not matter to its environments
-/

namespace LatexPreview

open Pattern Text

/-! ## Trees -/

/-- Where something is written: outside of environments, or directly in one of some kind. -/
inductive EnvPlace where
  | outside
  | quotation
  | list
  | table
  deriving DecidableEq

/-- The characters of plain text. -/
def IsPlain (c : Char) : Prop := c ∉ ['\\', '$', '{', '}', '[', ']']

instance (c : Char) : Decidable (IsPlain c) := inferInstanceAs (Decidable (c ∉ _))

/-- What is written at a place, apart from environments. -/
inductive EnvLeaf : EnvPlace → Type
  | char {p : EnvPlace} (c : Char) (plain : IsPlain c) : EnvLeaf p
  | item : EnvLeaf .list
  | term (s : Text) (plain : ∀ c ∈ s, IsPlain c) : EnvLeaf .list
  | row (c : Char) (blank : c ∈ [' ', '\n']) : EnvLeaf .table

/-- An environment, without what is in it. -/
inductive Enclosure where
  | quote
  | quotation
  | list (kind : ListKind)
  | tabular (columns : Text) (plain : ∀ c ∈ columns, IsPlain c)

/-- The place in an environment. -/
def Enclosure.place : Enclosure → EnvPlace
  | quote | quotation => .quotation
  | list _ => .list
  | tabular _ _ => .table

/-- What is written at a place. -/
inductive EnvTree : EnvPlace → Type
  | nil {p : EnvPlace} : EnvTree p
  | leaf {p : EnvPlace} (x : EnvLeaf p) (more : EnvTree p) : EnvTree p
  | env {p : EnvPlace} (e : Enclosure) (body : EnvTree e.place) (more : EnvTree p) : EnvTree p

/-! ## Sources -/

/-- The source of a leaf. -/
def EnvLeaf.text {p : EnvPlace} : EnvLeaf p → Text
  | char c _ => [c]
  | item => itemCommand
  | term s _ => itemCommand ++ ('[' :: s ++ [']'])
  | row c _ => ['\\', '\\', c]

namespace Enclosure

/-- The name of the environment. -/
def name : Enclosure → String
  | quote => "quote"
  | quotation => "quotation"
  | list kind => kind.name
  | tabular _ _ => "tabular"

/-- What is written between the tag that opens the environment and what is in it. -/
def declaration : Enclosure → Text
  | quote | quotation | list _ => []
  | tabular columns _ => braced columns

/-- The source in front of what is in the environment. -/
def opening (e : Enclosure) : Text := beginTag e.name.toList ++ e.declaration

/-- The source behind what is in the environment. -/
def closing (e : Enclosure) : Text := endTag e.name.toList

/-- The environment with something in it. -/
def tagged (e : Enclosure) (s : Text) : Text := e.opening ++ (s ++ e.closing)

end Enclosure

namespace EnvTree

/-- The source of a tree. -/
def text {p : EnvPlace} : EnvTree p → Text
  | nil => []
  | leaf x more => x.text ++ more.text
  | env e body more => e.tagged body.text ++ more.text

/-- The places in all environments of a tree. -/
def places {p : EnvPlace} : EnvTree p → List EnvPlace
  | nil => []
  | leaf _ more => more.places
  | env e body more => e.place :: (body.places ++ more.places)

/-- Something holds of each environment and what is in it. -/
def All (P : (e : Enclosure) → EnvTree e.place → Prop) {p : EnvPlace} : EnvTree p → Prop
  | nil => True
  | leaf _ more => more.All P
  | env e body more => P e body ∧ body.All P ∧ more.All P

/-- Plain text in front of something else. -/
def chars {p : EnvPlace} : (s : Text) → (∀ c ∈ s, IsPlain c) → EnvTree p → EnvTree p
  | [], _, more => more
  | c :: s, h, more =>
    leaf (.char c (h c List.mem_cons_self)) (chars s (fun d hd => h d (List.mem_cons_of_mem c hd)) more)

variable {p : EnvPlace} {P Q : (e : Enclosure) → EnvTree e.place → Prop}

@[simp] theorem text_chars {s : Text} (h : ∀ c ∈ s, IsPlain c) (more : EnvTree p) :
    (chars s h more).text = s ++ more.text := by
  induction s with
  | nil => rfl
  | cons c s ih => simp [chars, text, EnvLeaf.text, ih]

@[simp] theorem places_chars {s : Text} (h : ∀ c ∈ s, IsPlain c) (more : EnvTree p) :
    (chars s h more).places = more.places := by
  induction s with
  | nil => rfl
  | cons c s ih => exact ih _

@[simp] theorem all_chars {s : Text} (h : ∀ c ∈ s, IsPlain c) (more : EnvTree p) :
    (chars s h more).All P ↔ more.All P := by
  induction s with
  | nil => exact Iff.rfl
  | cons c s ih => exact ih _

theorem all_and {t : EnvTree p} : t.All (fun e body => P e body ∧ Q e body) ↔ t.All P ∧ t.All Q := by
  induction t with
  | nil => simp [All]
  | leaf x more ih => exact ih
  | env e body more ihbody ihmore =>
    rw [All, All, All, ihbody, ihmore]
    tauto

theorem All.mono {t : EnvTree p} (h : t.All P) (hsub : ∀ e body, P e body → Q e body) : t.All Q := by
  induction t with
  | nil => trivial
  | leaf x more ih => exact ih h
  | env e body more ihbody ihmore => exact ⟨hsub e body h.1, ihbody h.2.1, ihmore h.2.2⟩

theorem all_of_places_eq_nil {t : EnvTree p} (h : t.places = []) : t.All P := by
  induction t with
  | nil => trivial
  | leaf x more ih => exact ih h
  | env e body more => simp [places] at h

/-- What holds of the places in all environments. -/
theorem all_place_iff {R : EnvPlace → Prop} {t : EnvTree p} :
    t.All (fun e _ => R e.place) ↔ ∀ q ∈ t.places, R q := by
  induction t with
  | nil => simp [All, places]
  | leaf x more ih => exact ih
  | env e body more ihbody ihmore =>
    simp only [All, places, List.forall_mem_cons, List.forall_mem_append, ihbody, ihmore]

end EnvTree

/-! ## Environments that keep apart -/

/-- What may be within environments of some kind: nothing in quotations, in tables only quotations,
and anything in lists. -/
def EnvPlace.Admits : EnvPlace → EnvPlace → Prop
  | outside, _ | list, _ => True
  | table, inner => inner = quotation
  | quotation, _ => False

/-- Each environment has only others in it that may be there. -/
def EnvTree.Separate {p : EnvPlace} (t : EnvTree p) : Prop :=
  t.All fun e body => ∀ inner ∈ body.places, e.place.Admits inner

/-- A list in a quotation. -/
example :
    let items : EnvTree .list := .leaf .item (.leaf (.char ' ' (by decide)) .nil)
    (EnvTree.env .quote (.env (.list .itemize) items .nil) .nil : EnvTree .outside).text =
      "\\begin\x7bquote\x7d\\begin\x7bitemize\x7d\\item ".toList ++
        "\\end\x7bitemize\x7d\\end\x7bquote\x7d".toList := by
  decide

/-! ## Names behind backslashes -/

/-- The names behind the backslashes of leaves. -/
def leafNames : List Text := [['i', 't', 'e', 'm'], ['\\'], [' '], ['\n']]

/-- The names of the environments. -/
def envNames : List String := ["quote", "quotation", "itemize", "enumerate", "description", "tabular"]

/-- What stands behind the backslash of the tag that opens an environment. -/
def openingName (name : String) : Text := "begin".toList ++ braced name.toList

/-- What stands behind the backslash of the tag that closes an environment. -/
def closingName (name : String) : Text := "end".toList ++ braced name.toList

/-- The names behind the backslashes of documents. -/
def environmentNames : List Text := leafNames ++ (envNames.map openingName ++ envNames.map closingName)

theorem IsPlain.ne {c d : Char} (h : IsPlain c) (hd : d ∈ ['\\', '$', '{', '}', '[', ']']) : d ≠ c :=
  fun heq => h (heq ▸ hd)

theorem IsPlain.not_mem {s : Text} (h : ∀ c ∈ s, IsPlain c) {d : Char}
    (hd : d ∈ ['\\', '$', '{', '}', '[', ']']) : d ∉ s := fun hmem => (h d hmem).ne hd rfl

theorem Enclosure.name_mem (e : Enclosure) : e.name ∈ envNames := by
  cases e with
  | list kind => cases kind <;> decide
  | quote | quotation | tabular _ _ => simp [name, envNames]

theorem not_mem_envName {name : String} (hname : name ∈ envNames) {c : Char}
    (hc : c ∈ ['\\', '$', '{', '}']) : c ∉ name.toList := by
  simp only [List.mem_cons, List.not_mem_nil, or_false] at hc
  simp only [envNames, List.mem_cons, List.not_mem_nil, or_false] at hname
  rcases hname with rfl | rfl | rfl | rfl | rfl | rfl <;> rcases hc with rfl | rfl | rfl | rfl <;>
    decide

namespace EnvLeaf

variable {p : EnvPlace} (x : EnvLeaf p)

theorem commands_text (s : Text) : Commands leafNames x.text s := by
  have hitem : ∀ v, '\\' ∉ v → Commands leafNames (itemCommand ++ v) s := fun v hv =>
    commands_append.2 ⟨commands_word List.mem_cons_self (by decide), commands_of_not_mem hv⟩
  cases x with
  | char c hc => exact commands_of_not_mem (List.mem_singleton.not.2 (hc.ne (by simp)))
  | item => exact hitem [] (by decide)
  | term t ht =>
    have hplain := IsPlain.not_mem ht (by simp : '\\' ∈ _)
    exact hitem _ (by simp [hplain])
  | row c hc =>
    have hname : [c] ∈ leafNames ∧ c ≠ '\\' := by
      rcases List.mem_pair.1 hc with rfl | rfl <;> decide
    exact ⟨fun _ => .inr ⟨['\\'], by simp [leafNames], ⟨c :: s, rfl⟩⟩,
      fun _ => .inr ⟨[c], hname.1, ⟨s, rfl⟩⟩, fun h => absurd h hname.2, trivial⟩

theorem not_mem_text {c : Char} (hc : c ∈ ['$', '{', '}']) : c ∉ x.text := by
  have hspecial : c ∈ ['\\', '$', '{', '}', '[', ']'] ∧ c ∉ itemCommand ∧
      c ∉ ['[', ']', '\\', ' ', '\n'] := by
    simp only [List.mem_cons, List.not_mem_nil, or_false] at hc
    rcases hc with rfl | rfl | rfl <;> decide
  obtain ⟨hmem, hitem, hother⟩ := hspecial
  cases x with
  | char d hd => simpa [text] using hd.ne hmem
  | item => exact hitem
  | term t ht =>
    have hplain := IsPlain.not_mem ht hmem
    simp_all [text]
  | row d hd =>
    have hne : c ≠ d := by
      rintro rfl
      simp_all
    simp_all [text]

theorem last_text : ∃ c ∈ x.text.getLast?, c ≠ '\\' := by
  cases x with
  | char c hc => exact ⟨c, rfl, (hc.ne (by simp : '\\' ∈ _)).symm⟩
  | item => exact ⟨'m', by decide, by decide⟩
  | term t ht =>
    have hlast : text (.term t ht) = (itemCommand ++ '[' :: t) ++ [']'] := by simp [text]
    exact ⟨']', by rw [hlast, List.getLast?_concat]; rfl, by decide⟩
  | row c hc =>
    refine ⟨c, rfl, ?_⟩
    rcases List.mem_pair.1 hc with rfl | rfl <;> decide

end EnvLeaf

theorem last_braced (s t : Text) : (s ++ braced t).getLast? = some '}' := by
  rw [braced, ← List.append_assoc, List.getLast?_concat]

namespace Enclosure

variable (e : Enclosure)

theorem commands_opening (s : Text) : Commands [openingName e.name] e.opening s := by
  have hname := not_mem_envName e.name_mem (by simp : '\\' ∈ _)
  refine commands_append.2 ⟨?_, commands_of_not_mem ?_⟩
  · exact commands_word (n := openingName e.name) List.mem_cons_self
      (by simp [openingName, braced, hname])
  · cases e with
    | tabular columns hcolumns =>
      have hplain := IsPlain.not_mem hcolumns (by simp : '\\' ∈ _)
      simp [declaration, braced, hplain]
    | quote | quotation | list _ => simp [declaration]

theorem commands_closing (s : Text) : Commands [closingName e.name] e.closing s := by
  have hname := not_mem_envName e.name_mem (by simp : '\\' ∈ _)
  exact commands_word (n := closingName e.name) List.mem_cons_self
    (by simp [closingName, braced, hname])

theorem dollar_not_mem : '$' ∉ e.opening ∧ '$' ∉ e.closing := by
  have hname := not_mem_envName e.name_mem (by simp : '$' ∈ _)
  refine ⟨?_, by simp [closing, endTag, braced, hname]⟩
  cases e with
  | tabular columns hcolumns =>
    have hplain := IsPlain.not_mem hcolumns (by simp : '$' ∈ _)
    simp [opening, declaration, beginTag, braced, hname, hplain]
  | quote | quotation | list _ => simp [opening, declaration, beginTag, braced, hname]

theorem last_opening : e.opening.getLast? = some '}' := by
  cases e with
  | tabular columns hcolumns => exact last_braced _ columns
  | quote | quotation | list _ =>
    exact (congrArg List.getLast? (List.append_nil _)).trans (last_braced _ _)

theorem last_closing : e.closing.getLast? = some '}' := last_braced _ _

end Enclosure

/-! ## Documents as a whole -/

namespace EnvTree

variable {p : EnvPlace}

/-- Behind each backslash in a source stands a known name. -/
theorem commands_text (t : EnvTree p) (s : Text) : Commands environmentNames t.text s := by
  induction t generalizing s with
  | nil => trivial
  | leaf x more ih =>
    exact commands_append.2
      ⟨(x.commands_text _).mono fun n hn => List.mem_append_left _ hn, ih s⟩
  | env e body more ihbody ihmore =>
    have htags : ∀ n, n = openingName e.name ∨ n = closingName e.name → n ∈ environmentNames := by
      rintro n (rfl | rfl)
      · exact List.mem_append_right _ (List.mem_append_left _ (List.mem_map_of_mem e.name_mem))
      · exact List.mem_append_right _ (List.mem_append_right _ (List.mem_map_of_mem e.name_mem))
    refine commands_append.2 ⟨commands_append.2 ⟨?_, commands_append.2 ⟨ihbody _, ?_⟩⟩, ihmore s⟩
    · exact (e.commands_opening _).mono fun n hn => htags n (.inl (List.mem_singleton.1 hn))
    · exact (e.commands_closing _).mono fun n hn => htags n (.inr (List.mem_singleton.1 hn))

theorem dollar_not_mem_text (t : EnvTree p) : '$' ∉ t.text := by
  induction t with
  | nil => exact List.not_mem_nil
  | leaf x more ih => simp [text, ih, x.not_mem_text]
  | env e body more ihbody ihmore =>
    simp [text, Enclosure.tagged, ihbody, ihmore, e.dollar_not_mem]

theorem last_text (t : EnvTree p) : t.text.getLast? ≠ some '\\' := by
  have hbehind : ∀ {x y : Text} {c : Char}, x.getLast? = some c → c ≠ '\\' →
      y.getLast? ≠ some '\\' → (x ++ y).getLast? ≠ some '\\' := by
    intro x y c hx hc hy hlast
    rw [List.getLast?_append, hx] at hlast
    cases hlasty : y.getLast? with
    | none =>
      rw [hlasty] at hlast
      exact hc (Option.some.inj hlast)
    | some d =>
      rw [hlasty] at hlast
      exact hy (hlasty.trans hlast)
  induction t with
  | nil => simp [text]
  | leaf x more ih =>
    obtain ⟨c, hlast, hc⟩ := x.last_text
    exact hbehind hlast hc ih
  | env e body more ihbody ihmore =>
    refine hbehind ?_ (by decide : '}' ≠ '\\') ihmore
    rw [Enclosure.tagged, ← List.append_assoc, List.getLast?_append, e.last_closing]
    rfl

/-- Without environments, the commands are those of leaves. -/
theorem commands_of_places_eq_nil {t : EnvTree p} (h : t.places = []) (s : Text) :
    Commands leafNames t.text s := by
  induction t generalizing s with
  | nil => trivial
  | leaf x more ih => exact commands_append.2 ⟨x.commands_text _, ih h s⟩
  | env e body more => simp [places] at h

theorem avoids_endTag {t : EnvTree p} (h : t.places = []) (name s : Text) :
    Avoids (endTag name) t.text s :=
  ((commands_of_places_eq_nil h s).avoids (w := "end".toList) (by decide) (by decide)).mono
    (braced name)

/-- Outside of lists and tables, there are no commands but tags. -/
theorem slash_not_mem_text {t : EnvTree p} (hp : p = .outside ∨ p = .quotation)
    (h : t.places = []) : '\\' ∉ t.text := by
  induction t with
  | nil => exact List.not_mem_nil
  | leaf x more ih =>
    refine List.mem_append.not.2 (not_or.2 ⟨?_, ih hp h⟩)
    cases x with
    | char c hc => exact List.mem_singleton.not.2 (hc.ne (by simp))
    | item | term | row => simp at hp
  | env e body more => simp [places] at h

/-- In front of the first environment, there are only leaves. -/
theorem exists_front {t : EnvTree p} (h : t.places ≠ []) :
    ∃ (front : EnvTree p) (e : Enclosure) (rest : Text), front.places = [] ∧ e.place ∈ t.places ∧
      t.text = front.text ++ (e.opening ++ rest) := by
  induction t with
  | nil => exact absurd rfl h
  | leaf x more ih =>
    obtain ⟨front, e, rest, hfront, he, htext⟩ := ih h
    exact ⟨leaf x front, e, rest, hfront, he, by simp [text, htext]⟩
  | env e body more =>
    exact ⟨nil, e, body.text ++ e.closing ++ more.text, rfl, List.mem_cons_self,
      by simp [text, Enclosure.tagged]⟩

theorem exists_trimStart (t : EnvTree p) (hp : p = .outside) :
    ∃ u : EnvTree p, u.text = t.text.trimStart ∧ ∀ P, u.All P ↔ t.All P := by
  induction t with
  | nil => exact ⟨nil, rfl, fun P => Iff.rfl⟩
  | leaf x more ih =>
    subst hp
    obtain ⟨u, htext, hall⟩ := ih rfl
    cases x with
    | char c hc =>
      by_cases hblank : isBlank c = true
      · exact ⟨u, htext.trans (List.dropWhile_cons_of_pos hblank).symm, hall⟩
      · exact ⟨leaf (.char c hc) more, (List.dropWhile_cons_of_neg hblank).symm, fun P => Iff.rfl⟩
  | env e body more =>
    have hfront : ¬ isBlank '\\' = true := by decide
    exact ⟨env e body more, (List.dropWhile_cons_of_neg hfront).symm, fun P => Iff.rfl⟩

theorem exists_trimEnd (t : EnvTree p) (hp : p = .outside) :
    ∃ u : EnvTree p, u.text = t.text.trimEnd ∧ ∀ P, u.All P ↔ t.All P := by
  induction t with
  | nil => exact ⟨nil, rfl, fun P => Iff.rfl⟩
  | leaf x more ih =>
    subst hp
    obtain ⟨u, htext, hall⟩ := ih rfl
    cases x with
    | char c hc =>
      have hstep : text (leaf (.char c hc) more) = c :: more.text := rfl
      by_cases hblank : u.text = [] ∧ isBlank c = true
      · refine ⟨u, ?_, hall⟩
        rw [hstep, Text.trimEnd, ← htext, hblank.1]
        simp [hblank.2]
      · refine ⟨leaf (.char c hc) u, ?_, hall⟩
        rw [hstep, Text.trimEnd, ← htext]
        show c :: u.text = _
        cases hu : u.text with
        | nil => simp [show isBlank c = false by simpa [hu] using hblank]
        | cons d s => rfl
  | env e body more ihbody ihmore =>
    obtain ⟨u, htext, hall⟩ := ihmore hp
    refine ⟨env e body u, ?_, fun P => and_congr_right fun _ => and_congr_right fun _ => hall P⟩
    have hfirm : ∃ c ∈ (e.tagged body.text).getLast?, isBlank c = false := by
      refine ⟨'}', ?_, by decide⟩
      rw [Enclosure.tagged, ← List.append_assoc, List.getLast?_append, e.last_closing]
      rfl
    rw [text, text, trimEnd_behind hfirm, htext]

/-- Blanks around a document do not matter to its environments. -/
theorem exists_trim (t : EnvTree .outside) :
    ∃ u : EnvTree .outside, u.text = t.text.trim ∧ (u.Separate ↔ t.Separate) := by
  obtain ⟨u, hu, hallu⟩ := t.exists_trimStart rfl
  obtain ⟨v, hv, hallv⟩ := u.exists_trimEnd rfl
  exact ⟨v, by rw [hv, hu, Text.trim], (hallv _).trans (hallu _)⟩

end EnvTree

end LatexPreview
