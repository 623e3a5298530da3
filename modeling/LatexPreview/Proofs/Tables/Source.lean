import Mathlib
import LatexPreview.Proofs.Tables.Rules
import LatexPreview.Proofs.Pattern.Trim

/-!
# The source of a table

Rows stand between row breaks, and each break may have an argument for the space below it.  Lines are
drawn in front of the rows, between them and behind them.  A break with a row directly behind it may be
read as a line: then the row is not a row of its own.

* `TableRow`, `RowBreak`, `TableSource` are the parts of a source and the whole of it
* `TableSource.Unmistaken`: directly behind a break, no row starts with the name of a line
* `erase_items`, `erase_break`: what is left of the parts without the lines
-/

namespace LatexPreview

open Pattern Text

/-! ## Texts of cells -/

/-- A text in which a backslash only stands in front of an ampersand. -/
inductive Escaping : Text → Prop
  | nil : Escaping []
  | char {c : Char} {s : Text} (hc : c ≠ '\\') (hs : Escaping s) : Escaping (c :: s)
  | ampersand {s : Text} (hs : Escaping s) : Escaping ('\\' :: '&' :: s)

/-- A text in which each ampersand stands behind a backslash, and there is no other backslash. -/
inductive IsCell : Text → Prop
  | nil : IsCell []
  | char {c : Char} {s : Text} (hc : c ∉ ['&', '\\']) (hs : IsCell s) : IsCell (c :: s)
  | ampersand {s : Text} (hs : IsCell s) : IsCell ('\\' :: '&' :: s)

theorem Escaping.append {x y : Text} (hx : Escaping x) (hy : Escaping y) : Escaping (x ++ y) := by
  induction hx with
  | nil => exact hy
  | char hc _ ih => exact .char hc ih
  | ampersand _ ih => exact .ampersand ih

theorem escaping_of_not_mem {x : Text} (h : '\\' ∉ x) : Escaping x := by
  induction x with
  | nil => exact .nil
  | cons c x ih =>
    exact .char (fun hc => h (by simp [hc])) (ih fun hmem => h (by simp [hmem]))

theorem IsCell.escaping {s : Text} (h : IsCell s) : Escaping s := by
  induction h with
  | nil => exact .nil
  | char hc _ ih => exact .char (fun heq => hc (by simp [heq])) ih
  | ampersand _ ih => exact .ampersand ih

theorem isCell_of_not_mem {s : Text} (hand : '&' ∉ s) (hslash : '\\' ∉ s) : IsCell s := by
  induction s with
  | nil => exact .nil
  | cons c s ih =>
    simp only [List.mem_cons, not_or] at hand hslash
    exact .char (by simp [Ne.symm hand.1, Ne.symm hslash.1]) (ih hand.2 hslash.2)

theorem escaping_join {cells : List Text} (h : ∀ c ∈ cells, IsCell c) : Escaping (join ['&'] cells) := by
  induction cells with
  | nil => exact .nil
  | cons c cells ih =>
    cases cells with
    | nil => exact (h c (by simp)).escaping
    | cons d cells =>
      have hmore := ih fun e he => h e (by simp [he])
      exact ((h c (by simp)).escaping.append (.char (by decide) .nil)).append hmore

/-! ## Sources -/

/-- A blank, or a command that draws a line. -/
inductive RuleItem where
  | blank (c : Char) (hc : isBlank c = true)
  | rule (r : RowRule)

/-- The source of the item. -/
def RuleItem.text : RuleItem → Text
  | blank c _ => [c]
  | rule r => r.text

/-- What is left of the item when the lines are taken out. -/
def RuleItem.left : RuleItem → Text
  | blank c _ => [c]
  | rule _ => []

/-- A row of cells. -/
structure TableRow where
  cells : List Text
  nonempty : cells ≠ []
  plain : ∀ c ∈ cells, IsCell c

/-- The source of the row. -/
def TableRow.text (r : TableRow) : Text := join ['&'] r.cells

/-- The row shows something, and does not start with what reads as a space below a break. -/
structure TableRow.Visible (r : TableRow) : Prop where
  shown : r.text.allBlank = false
  unspaced : r.cells.head?.bind (·.trim.head?) ≠ some '['

/-- The end of a row: a break, perhaps with a space below it, between lines. -/
structure RowBreak where
  before : List RuleItem
  spacing : Option Text
  after : List RuleItem
  short : ∀ length ∈ spacing, ∀ c ∈ length, c ∉ [']', '&', '\\']

/-- The space below a break. -/
def spacingText (spacing : Option Text) : Text :=
  spacing.elim [] fun length => '[' :: (length ++ [']'])

/-- The source of lines. -/
def itemsText (items : List RuleItem) : Text := items.flatMap RuleItem.text

/-- What is left of lines. -/
def itemsLeft (items : List RuleItem) : Text := items.flatMap RuleItem.left

/-- The source of the break. -/
def RowBreak.text (b : RowBreak) : Text :=
  itemsText b.before ++ ("\\\\".toList ++ (spacingText b.spacing ++ itemsText b.after))

/-- The source of a table. -/
structure TableSource where
  front : List RuleItem
  first : TableRow
  more : List (RowBreak × TableRow)
  last : Option RowBreak
  back : List RuleItem

namespace TableSource

/-- The source of what follows the last row. -/
def ending (t : TableSource) : Text := t.last.elim [] RowBreak.text ++ itemsText t.back

/-- The source of breaks with the rows behind them. -/
def breaksText (breaks : List (RowBreak × TableRow)) (ending : Text) : Text :=
  breaks.foldr (fun row s => row.1.text ++ (row.2.text ++ s)) ending

/-- The whole source. -/
def text (t : TableSource) : Text :=
  itemsText t.front ++ (t.first.text ++ breaksText t.more t.ending)

/-- The rows. -/
def rows (t : TableSource) : List TableRow := t.first :: t.more.map (·.2)

/-- No row directly behind a break starts with the name of a line. -/
def Unmistaken (ending : Text) : List (RowBreak × TableRow) → Prop
  | [] => True
  | (b, r) :: more =>
    (b.spacing = none → b.after = [] → ¬ RuleFirst ('\\' :: (r.text ++ breaksText more ending))) ∧
      Unmistaken ending more

end TableSource

/-! ## Without lines -/

section Erase

variable {x s : Text}

theorem erase_escaping (hx : Escaping x) (s : Text) :
    rulePattern.erase (x ++ s) = x ++ rulePattern.erase s := by
  induction hx with
  | nil => rfl
  | char hc _ ih =>
    rw [List.cons_append, erase_char (not_ruleFirst_of_ne hc _), ih]
    rfl
  | ampersand _ ih =>
    rw [List.cons_append, List.cons_append, erase_char (not_ruleFirst_of_not_mem (by decide) _),
      erase_char (not_ruleFirst_of_ne (by decide) _), ih]
    rfl

theorem erase_items (items : List RuleItem) (s : Text) :
    rulePattern.erase (itemsText items ++ s) = itemsLeft items ++ rulePattern.erase s := by
  induction items with
  | nil => rfl
  | cons item items ih =>
    have hsplit : itemsText (item :: items) ++ s = item.text ++ (itemsText items ++ s) := by
      simp [itemsText]
    rw [hsplit]
    cases item with
    | rule r => exact (erase_rule r _).trans ih
    | blank c hc =>
      have hslash : c ≠ '\\' := by
        rintro rfl
        exact absurd hc (by decide)
      have hfirst := erase_char (not_ruleFirst_of_ne hslash (itemsText items ++ s))
      exact hfirst.trans (congrArg (c :: ·) ih)

theorem blank_itemsLeft (items : List RuleItem) : ∀ c ∈ itemsLeft items, isBlank c = true := by
  intro c hc
  obtain ⟨item, -, hitem⟩ := List.mem_flatMap.1 hc
  cases item with
  | rule r => exact absurd hitem List.not_mem_nil
  | blank d hd => exact List.mem_singleton.1 hitem ▸ hd

theorem escaping_spacing {spacing : Option Text}
    (h : ∀ length ∈ spacing, ∀ c ∈ length, c ∉ [']', '&', '\\']) : Escaping (spacingText spacing) := by
  cases spacing with
  | none => exact .nil
  | some length =>
    have hslash : '\\' ∉ length := fun hmem => h length rfl '\\' hmem (by simp)
    exact escaping_of_not_mem (by simp [spacingText, hslash])

/-- Lines do not read as another one behind a backslash. -/
theorem not_ruleFirst_items (items : List RuleItem) (h : items = [] → ¬ RuleFirst ('\\' :: s)) :
    ¬ RuleFirst ('\\' :: (itemsText items ++ s)) := by
  cases items with
  | nil => exact h rfl
  | cons item items =>
    cases item with
    | rule r =>
      obtain ⟨c, -, w, hw⟩ := r.exists_text
      have hsplit : '\\' :: (itemsText (.rule r :: items) ++ s) =
          '\\' :: '\\' :: (c :: w ++ (itemsText items ++ s)) := by
        simp [itemsText, RuleItem.text, hw]
      rw [hsplit]
      exact not_ruleFirst_of_not_mem (by decide) _
    | blank c hc =>
      refine not_ruleFirst_of_not_mem (c := c) (fun hmem => ?_) _
      simp only [List.mem_cons, List.not_mem_nil, or_false] at hmem
      rcases hmem with rfl | rfl | rfl | rfl | rfl <;> exact absurd hc (by decide)

/-- A break stays as it is, unless what follows reads as a line. -/
theorem erase_break (b : RowBreak)
    (h : b.spacing = none → b.after = [] → ¬ RuleFirst ('\\' :: s)) :
    rulePattern.erase (b.text ++ s) = itemsLeft b.before ++ ("\\\\".toList ++
      (spacingText b.spacing ++ (itemsLeft b.after ++ rulePattern.erase s))) := by
  have hslash : ¬ RuleFirst ('\\' :: (spacingText b.spacing ++ (itemsText b.after ++ s))) := by
    cases hs : b.spacing with
    | none => exact not_ruleFirst_items _ (h hs)
    | some length => exact not_ruleFirst_of_not_mem (by decide) _
  have hsplit : b.text ++ s = itemsText b.before ++
      ('\\' :: '\\' :: (spacingText b.spacing ++ (itemsText b.after ++ s))) := by
    simp [RowBreak.text]
  rw [hsplit, erase_items, erase_char (not_ruleFirst_of_not_mem (by decide) _), erase_char hslash,
    erase_escaping (escaping_spacing b.short), erase_items]
  rfl

end Erase

end LatexPreview
