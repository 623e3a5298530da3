import Mathlib
import LatexPreview.Convert.Lists
import LatexPreview.Proofs.Source.Grammar

/-!
# Trees of lists

Lists whose items are rows of characters and further lists.  A tree may have holes, in which
something stands that has been converted before.  It is written as a source, and shown as elements
that are nested in the same way.

* `ListBody` is what stands between the tags of a list, or behind a place in one of its items
* `ListBody.text` is its source, `ListBody.latex` that of a whole list
* `ListBody.shown` and `ListBody.html` are the elements that it is shown as
* `commands_text`: the names behind the backslashes of a source
-/

namespace LatexPreview

open Pattern Text

/-! ## Trees -/

/-- What stands in front of an item. -/
inductive ItemMark : ListKind → Type
  | bullet : ItemMark .itemize
  | number : ItemMark .enumerate
  | term (s : Text) (plain : ∀ c ∈ s, c ∉ ['\\', '$', ']']) : ItemMark .description

/-- What stands between the tags of a list, or behind a place in an item of it: blanks in front of
the first item, items, and in these characters, other lists and holes.  There is one type for both
places, since an item ends where the next one begins. -/
inductive ListBody (α : Type) : (kind : ListKind) → (inItem : Bool) → Type
  | nil {kind : ListKind} {inItem : Bool} : ListBody α kind inItem
  | blank {kind : ListKind} (c : Char) (blank : isBlank c = true) (more : ListBody α kind false) :
      ListBody α kind false
  | item {kind : ListKind} {inItem : Bool} (mark : ItemMark kind) (more : ListBody α kind true) :
      ListBody α kind inItem
  | char {kind : ListKind} (c : Char) (plain : c ∉ ['\\', '$']) (more : ListBody α kind true) :
      ListBody α kind true
  | hole {kind : ListKind} (a : α) (more : ListBody α kind true) : ListBody α kind true
  | list {kind : ListKind} (inner : ListKind) (body : ListBody α inner false)
      (more : ListBody α kind true) : ListBody α kind true

/-- A text between blank lines. -/
def apart (s : Text) : Text := "\n\n".toList ++ s ++ "\n\n".toList

/-! ## Sources -/

/-- The command for an item. -/
def itemCommand : Text := "\\item".toList

/-- The source in front of an item. -/
def ItemMark.text {kind : ListKind} : ItemMark kind → Text
  | bullet | number => itemCommand ++ [' ']
  | term s _ => itemCommand ++ ('[' :: s ++ [']'])

/-- A list with its tags. -/
def ListKind.tagged (kind : ListKind) (s : Text) : Text :=
  beginTag kind.name.toList ++ s ++ endTag kind.name.toList

namespace ListBody

variable {α : Type} {kind : ListKind} {inItem : Bool}

/-- The source, with texts in the holes. -/
def text (content : α → Text) {kind : ListKind} {inItem : Bool} : ListBody α kind inItem → Text
  | nil => []
  | blank c _ more => c :: more.text content
  | item mark more => mark.text ++ more.text content
  | char c _ more => c :: more.text content
  | hole a more => apart (content a) ++ more.text content
  | list inner body more => inner.tagged (body.text content) ++ more.text content

/-- The source of a whole list. -/
def latex (content : α → Text) (body : ListBody α kind false) : Text := kind.tagged (body.text content)

end ListBody

/-! ## Elements -/

/-- The element of a list. -/
def ListKind.frame : ListKind → Text → Text
  | itemize => Html.styled "ul" Style.bulletList
  | enumerate => Html.styled "ol" Style.numberedList
  | description => Html.styled "dl" Style.termList

/-- The elements of an item. -/
def ItemMark.html {kind : ListKind} (content : Text) : ItemMark kind → Text
  | bullet | number => Html.styled "li" Style.listItem content.trim
  | term s _ => Html.styled "dt" Style.term s ++ Html.styled "dd" Style.termText content.trim

namespace ListBody

variable {α : Type} {kind : ListKind} {inItem : Bool}

/-- What is shown, with texts in the holes: the rest of the item, in which lists stand in their
place, and the items behind it. -/
def shown (content : α → Text) {kind : ListKind} {inItem : Bool} :
    ListBody α kind inItem → Text × Text
  | nil => ([], [])
  | blank c _ more => (c :: (more.shown content).1, (more.shown content).2)
  | item mark more => ([], mark.html (more.shown content).1 ++ (more.shown content).2)
  | char c _ more => (c :: (more.shown content).1, (more.shown content).2)
  | hole a more => (apart (content a) ++ (more.shown content).1, (more.shown content).2)
  | list inner body more =>
    (apart (inner.frame (body.shown content).2) ++ (more.shown content).1, (more.shown content).2)

/-- The element of a whole list. -/
def html (content : α → Text) (body : ListBody α kind false) : Text := kind.frame (body.shown content).2

/-- The number of lists. -/
def lists {kind : ListKind} {inItem : Bool} : ListBody α kind inItem → Nat
  | nil => 0
  | blank _ _ more | item _ more | char _ _ more | hole _ more => more.lists
  | list _ body more => body.lists + more.lists + 1

/-- What stands in the holes, from left to right. -/
def holes {kind : ListKind} {inItem : Bool} : ListBody α kind inItem → List α
  | nil => []
  | blank _ _ more | item _ more | char _ _ more => more.holes
  | hole a more => a :: more.holes
  | list _ body more => body.holes ++ more.holes

end ListBody

/-- A list in an item of another one. -/
example : (ListBody.item .bullet (.char 'a' (by simp)
    (.list .description (.item (.term ['T'] (by simp)) (.char 'x' (by simp) .nil)) .nil)) :
      ListBody Empty .itemize false).latex nofun =
    ("\\begin\x7bitemize\x7d\\item a\\begin\x7bdescription\x7d\\item[T]x\\end\x7bdescription\x7d" ++
      "\\end\x7bitemize\x7d").toList := by
  decide

/-! ## Names behind backslashes -/

/-- The names behind the backslashes of the tags of a list. -/
def ListKind.tagNames (kind : ListKind) : List Text :=
  ["begin".toList ++ braced kind.name.toList, "end".toList ++ braced kind.name.toList]

/-- The names behind the backslashes of lists in which there are other lists, or none. -/
def listNames (nested : Bool) : List Text :=
  ['i', 't', 'e', 'm'] :: if nested then ListKind.all.flatMap ListKind.tagNames else []

theorem ListKind.mem_all (kind : ListKind) : kind ∈ all := by cases kind <;> decide

theorem ListKind.mem_listNames (kind : ListKind) {n : Text} (hn : n ∈ kind.tagNames) :
    n ∈ listNames true :=
  List.mem_cons_of_mem _ (List.mem_flatMap.2 ⟨kind, kind.mem_all, hn⟩)

theorem ListKind.not_mem_name (kind : ListKind) {c : Char} (hc : c ∈ ['\\', '$', '\x7b', '\x7d']) :
    c ∉ kind.name.toList := by
  simp only [List.mem_cons, List.not_mem_nil, or_false] at hc
  rcases hc with rfl | rfl | rfl | rfl <;> cases kind <;> decide

theorem not_mem_apart {c : Char} {s : Text} (hc : c ≠ '\n') (hs : c ∉ s) : c ∉ apart s := by
  have hline : c ∉ "\n\n".toList := by simpa using hc
  simp [apart, hs, hc]

theorem ItemMark.commands {kind : ListKind} (mark : ItemMark kind) (nested : Bool) (s : Text) :
    Commands (listNames nested) mark.text s := by
  have hitem : ∀ v, '\\' ∉ v → Commands (listNames nested) (itemCommand ++ v) s := fun v hv =>
    commands_append.2 ⟨commands_word List.mem_cons_self (by decide), commands_of_not_mem hv⟩
  cases mark with
  | bullet | number => exact hitem [' '] (by decide)
  | term t ht =>
    have hplain : '\\' ∉ t := fun hmem => absurd (ht _ hmem) (by decide)
    exact hitem _ (by simp [hplain])

theorem ItemMark.dollar_not_mem {kind : ListKind} (mark : ItemMark kind) : '$' ∉ mark.text := by
  cases mark with
  | bullet | number => decide
  | term t ht =>
    have hplain : '$' ∉ t := fun hmem => absurd (ht _ hmem) (by decide)
    simp [text, itemCommand, hplain]

namespace ListBody

variable {α : Type} {content : α → Text} {kind : ListKind} {inItem : Bool}

/-- Behind each backslash in a source stands the name of one of the commands of lists. -/
theorem commands_text (hcontent : ∀ a, '\\' ∉ content a) {nested : Bool}
    (body : ListBody α kind inItem) (hnested : nested = true ∨ body.lists = 0) (s : Text) :
    Commands (listNames nested) (body.text content) s := by
  induction body generalizing s with
  | nil => trivial
  | blank c hc more ih =>
    exact ⟨fun heq => absurd (heq ▸ hc) (by decide), ih hnested s⟩
  | item mark more ih => exact commands_append.2 ⟨mark.commands _ _, ih hnested s⟩
  | char c hc more ih =>
    exact ⟨fun heq => absurd (heq ▸ hc) (by decide), ih hnested s⟩
  | hole a more ih =>
    have hplain := not_mem_apart (by decide) (hcontent a)
    exact commands_append.2 ⟨commands_of_not_mem hplain, ih hnested s⟩
  | list inner body more ihbody ihmore =>
    obtain rfl : nested = true := hnested.resolve_right (by simp [lists])
    have htag : ∀ w, '\\' ∉ w → w ++ braced inner.name.toList ∈ inner.tagNames → ∀ s,
        Commands (listNames true) ('\\' :: (w ++ braced inner.name.toList)) s := by
      intro w hw hmem s
      refine commands_word (inner.mem_listNames hmem) ?_
      simp [braced, hw, inner.not_mem_name]
    refine commands_append.2 ⟨commands_append.2 ⟨commands_append.2 ⟨?_, ihbody (.inl rfl) _⟩, ?_⟩,
      ihmore (.inl rfl) _⟩
    · exact htag "begin".toList (by decide) List.mem_cons_self _
    · exact htag "end".toList (by decide) (List.mem_cons_of_mem _ List.mem_cons_self) _

theorem dollar_not_mem_text (hcontent : ∀ a, '$' ∉ content a) (body : ListBody α kind inItem) :
    '$' ∉ body.text content := by
  induction body with
  | nil => exact List.not_mem_nil
  | blank c hc more ih =>
    have hne : '$' ≠ c := fun heq => absurd (heq ▸ hc) (by decide)
    simp [text, ih, hne]
  | item mark more ih => simp [text, ih, mark.dollar_not_mem]
  | char c hc more ih =>
    have hne : '$' ≠ c := by
      rintro rfl
      exact hc (by simp)
    simp [text, ih, hne]
  | hole a more ih => simp [text, ih, not_mem_apart, hcontent]
  | list inner body more ihbody ihmore =>
    simp [text, ListKind.tagged, beginTag, endTag, braced, ihbody, ihmore, inner.not_mem_name]

end ListBody

end LatexPreview
