import Mathlib
import LatexPreview.Proofs.Pattern.Border
import LatexPreview.Proofs.Pattern.Front
import LatexPreview.Source.WordCount

/-!
# Counting words line by line

The passes of the word count search the whole text, and a brace may be closed on a later line than it
was opened.  But where all braces that a text opens are closed in it, no match of any pass reaches
out of the text: this holds at first, and it still holds when the tags are gone, though these may
hold braces of their own.

* `unclosed` counts the braces that are left open
* `Closing`: behind every brace that opens there is one that closes
* `unclosed_erase_looseTag`: when the tags are taken out, no more braces are left open
* `proseOf_append`: the prose in front of the end of a line and behind it
* `countWords_paragraphs`: the words of two paragraphs are counted apart
-/

namespace LatexPreview

open Pattern

/-! ## Words -/

theorem splitOn_append_cons (isSep : Char → Bool) {c : Char} (hc : isSep c = true) (x y : Text) :
    Text.splitOn isSep (x ++ c :: y) = Text.splitOn isSep x ++ Text.splitOn isSep y := by
  have hne : ∀ z, ∃ part parts, Text.splitOn isSep z = part :: parts := by
    intro z
    induction z with
    | nil => exact ⟨[], [], rfl⟩
    | cons d z ih =>
      obtain ⟨part, parts, hz⟩ := ih
      rw [Text.splitOn, hz]
      split
      · exact ⟨_, _, rfl⟩
      · exact ⟨_, _, rfl⟩
  induction x with
  | nil => simp [Text.splitOn, hc]
  | cons d x ih =>
    obtain ⟨part, parts, hx⟩ := hne x
    rw [List.cons_append, Text.splitOn, Text.splitOn, ih, hx]
    split <;> rfl

/-- A blank stands between words. -/
theorem words_append_cons {c : Char} (hc : isBlank c = true) (x y : Text) :
    Text.words (x ++ c :: y) = Text.words x ++ Text.words y := by
  rw [Text.words, splitOn_append_cons isBlank hc, List.filter_append]
  rfl

/-! ## Braces -/

/-- The braces left open behind a text, if so many stood open in front of it: each closing brace
closes the last one that is open, and is passed over if there is none. -/
def unclosed : Nat → Text → Nat
  | depth, [] => depth
  | depth, c :: s => unclosed (if c = '{' then depth + 1 else if c = '}' then depth - 1 else depth) s

/-- Behind every brace that opens there is one that closes. -/
def Closing (s : Text) : Prop := ∀ x y, s = x ++ '{' :: y → '}' ∈ y

theorem hasEnds_closing : HasEnds Closing := by
  rintro c s h x y rfl
  exact h (c :: x) y rfl

section Unclosed

variable {n m : Nat} {x y w : Text}

theorem unclosed_append : unclosed n (x ++ y) = unclosed (unclosed n x) y := by
  induction x generalizing n with
  | nil => rfl
  | cons c x ih => rw [List.cons_append, unclosed, ih, unclosed]

theorem unclosed_mono (h : n ≤ m) : unclosed n x ≤ unclosed m x := by
  induction x generalizing n m with
  | nil => exact h
  | cons c x ih =>
    rw [unclosed, unclosed]
    refine ih ?_
    split_ifs <;> omega

theorem le_unclosed (hw : '}' ∉ w) : n ≤ unclosed n w := by
  induction w generalizing n with
  | nil => exact le_rfl
  | cons c w ih =>
    have hc : c ≠ '}' := fun hc => hw (by simp [hc])
    rw [unclosed, if_neg hc]
    refine le_trans ?_ (ih fun hmem => hw (by simp [hmem]))
    split_ifs <;> omega

/-- If no brace is left open, then every brace is closed. -/
theorem closing_of_unclosed (h : unclosed n x = 0) : Closing x := by
  rintro y z rfl
  by_contra hz
  have hopen : unclosed n y + 1 ≤ unclosed n (y ++ '{' :: z) := by
    rw [unclosed_append, unclosed, if_pos rfl]
    exact le_unclosed hz
  omega

end Unclosed

/-! ## Tags -/

/-- Over a tag, no brace is closed that stood open in front of it. -/
theorem exists_of_looseTag {b : Option Char} {s : Text} {stop : Cursor}
    (h : looseTag.at? b s = some stop) :
    ∃ m, s = m ++ stop.rest ∧ ∀ n, n ≤ unclosed n m := by
  have htag : ∀ name : String, '}' ∉ '\\' :: name.toList →
      (command name ++ looseArgument).run ⟨b, s, []⟩ some = some stop →
        ∃ m, s = m ++ stop.rest ∧ ∀ n, n ≤ unclosed n m := by
    intro name hname hrun
    obtain ⟨t, ht, hlater⟩ := run_sound (p := command name) hrun
    obtain ⟨w, hw, hfree⟩ := run_looseArgument hlater
    refine ⟨'\\' :: name.toList ++ '{' :: (w ++ ['}']), ?_, fun n => ?_⟩
    · rw [show s = _ from matches_lit ht, hw]
      simp
    · rw [unclosed_append, unclosed, if_pos rfl, unclosed_append]
      have hfront : n ≤ unclosed n ('\\' :: name.toList) := le_unclosed hname
      have hinside := le_unclosed (n := unclosed n ('\\' :: name.toList) + 1) hfree
      have hend : ∀ k, unclosed k ['}'] = k - 1 := fun _ => rfl
      rw [hend]
      omega
  rw [looseTag, at?, run_alt] at h
  rcases Option.or_eq_some_iff.1 h with hbegin | ⟨-, hend⟩
  · exact htag "begin" (by decide) hbegin
  · exact htag "end" (by decide) hend

theorem opens_looseTag : looseTag.Opens '\\' :=
  ((opens_command "begin").append _).alt ((opens_command "end").append _)

/-- When the tags are taken out, no more braces are left open than before. -/
theorem unclosed_erase_looseTag (n : Nat) (s : Text) :
    unclosed n (looseTag.erase s) ≤ unclosed n s := by
  have hless := opens_looseTag.consumes
  have hall : ∀ b s n, unclosed n (looseTag.rewritten (fun _ => []) b s) ≤ unclosed n s := by
    intro b s
    refine cutFrom_induction hless (motive := fun b s => ∀ n,
      unclosed n (looseTag.rewritten (fun _ => []) b s) ≤ unclosed n s)
      (fun b n => ?_) (fun b c s hat ih n => ?_) (fun b m stop hm hat ih n => ?_) b s
    · rw [rewritten_nil hless]
    · rw [rewritten_gap hless _ hat, unclosed, unclosed]
      exact ih _
    · obtain ⟨m', hm', hopen⟩ := exists_of_looseTag hat
      obtain rfl := List.append_cancel_right hm'
      rw [rewritten_hit hless _ hm hat rfl, List.nil_append, unclosed_append]
      exact le_trans (ih n) (unclosed_mono (hopen n))
  exact hall none s n

/-! ## The end of a line -/

section Border

variable {Q : Text → Prop} (hQ : HasEnds Q) (s : Text)

include hQ in
theorem staysBefore_char {ok : Char → Bool} (h : ok '\n' = false) :
    (one ok).StaysBefore ('\n' :: s) Q := .one hQ (by simpa using h)

include hQ in
theorem staysBefore_command {name : String} (hname : '\n' ∉ '\\' :: name.toList) :
    (command name).StaysBefore ('\n' :: s) Q := .lit hQ (by simpa using hname)

theorem staysBefore_looseTag : looseTag.StaysBefore ('\n' :: s) fun _ => True := by
  have hall : HasEnds fun _ => True := fun _ _ _ => trivial
  have hargument : looseArgument.StaysBefore ('\n' :: s) fun _ => True :=
    ((staysBefore_char hall s rfl).append
      ((staysBefore_char hall s rfl).fewest (consumes_one _))).append (staysBefore_char hall s rfl)
  exact ((staysBefore_command hall s (by decide)).append hargument).alt
    ((staysBefore_command hall s (by decide)).append hargument)

include hQ in
theorem staysBefore_commandName : commandName.StaysBefore ('\n' :: s) Q :=
  (staysBefore_char hQ s rfl).append ((staysBefore_char hQ s rfl).append
    ((staysBefore_char hQ s rfl).many (consumes_one _)))

/-- An argument whose brace is closed does not reach further. -/
theorem staysBefore_group :
    (one (· == '{') ++ many (noneOf "\x7d") ++ one (· == '}')).StaysBefore ('\n' :: s) Closing := by
  rintro ⟨before, rest, slots⟩ k k' hc hk
  have hsplit : ∀ c k, (one (· == '{') ++ many (noneOf "\x7d") ++ one (· == '}')).run c k =
      (one (· == '{')).run c fun t => (many (noneOf "\x7d") ++ one (· == '}')).run t k :=
    fun _ _ => rfl
  rw [hsplit, hsplit]
  cases rest with
  | nil => rfl
  | cons d y =>
    by_cases hd : d = '{'
    · subst hd
      have hopen : ∀ (c : Cursor) y k, c.rest = '{' :: y →
          (one (· == '{')).run c k = k (c.next '{' y) := by
        intro c y k hy
        simp [run, hy]
      obtain ⟨w, r, rfl, hw⟩ := List.eq_append_cons_of_mem (hc [] y rfl)
      have hr : Closing r := hasEnds_closing.of_append (x := '{' :: (w ++ ['}'])) (by simpa using hc)
      rw [hopen _ (w ++ '}' :: (r ++ '\n' :: s)) _ (by simp [Cursor.followed]),
        hopen _ (w ++ '}' :: r) _ rfl, run_upto (by decide) hw rfl, run_upto (by decide) hw rfl]
      exact hk ⟨some '}', r, slots⟩ hr
    · simp [run, Cursor.followed, hd]

theorem staysBefore_commandWithArguments :
    commandWithArguments.StaysBefore ('\n' :: s) Closing := by
  have hargument := (staysBefore_group s).capture "argument"
  have hless : (capture "argument" (one (· == '{') ++ many (noneOf "\x7d") ++ one (· == '}'))).Consumes := by
    rintro c t ⟨m, hm, rfl⟩
    exact (((opens_one '{').append _).append _).consumes c m hm
  exact ((staysBefore_commandName hasEnds_closing s).append
    ((staysBefore_char hasEnds_closing s rfl).alt .done)).append
      (hargument.append (hargument.many hless))

end Border

/-! ## The passes -/

section Passes

variable (x s : Text)

theorem erase_looseTag_append :
    looseTag.erase (x ++ '\n' :: s) = looseTag.erase x ++ '\n' :: looseTag.erase s := by
  have hborder : looseTag.Refuses ['\n'] := by decide
  exact (staysBefore_looseTag s).replace_append (fun _ _ _ => trivial) opens_looseTag.consumes
    ((unaware_lit _ _).append _ |>.alt ((unaware_lit _ _).append _))
    (fun b => hborder.run_eq_none (s := s) rfl some) (g := fun _ => []) (fun _ => rfl) trivial

theorem erase_commandName_append :
    commandName.erase (x ++ '\n' :: s) = commandName.erase x ++ '\n' :: commandName.erase s := by
  have hborder : commandName.Refuses ['\n'] := by decide
  exact (staysBefore_commandName (Q := fun _ => True) (fun _ _ _ => trivial) s).replace_append
    (fun _ _ _ => trivial) ((opens_one '\\').append _).consumes ((unaware_one _).append _)
    (fun b => hborder.run_eq_none (s := s) rfl some) (g := fun _ => []) (fun _ => rfl) trivial

/-- The last argument of a command, without braces. -/
def lastArgument (t : Cursor) : Text :=
  ((t.get? "argument").getD []).filter fun c => c != '{' && c != '}'

theorem replace_commandWithArguments_append (hx : Closing x) :
    commandWithArguments.replace (fun h => lastArgument h.stop) (x ++ '\n' :: s) =
      commandWithArguments.replace (fun h => lastArgument h.stop) x ++
        '\n' :: commandWithArguments.replace (fun h => lastArgument h.stop) s := by
  have hborder : commandWithArguments.Refuses ['\n'] := by decide
  have hopens : commandWithArguments.Opens '\\' := (((opens_one '\\').append _).append _).append _
  exact (staysBefore_commandWithArguments s).replace_append hasEnds_closing hopens.consumes
    ((((unaware_one _).append _).append _).append _)
    (fun b => hborder.run_eq_none (s := s) rfl some)
    (fun t => by rw [lastArgument, Cursor.get?_followed, lastArgument]) hx

variable {x} in
/-- The end of a line stands between the prose in front of it and the prose behind it, if all braces
that are opened in front of it are closed there. -/
theorem proseOf_append (hx : unclosed 0 x = 0) :
    proseOf (x ++ '\n' :: s) = proseOf x ++ '\n' :: proseOf s := by
  have hclosing : Closing (looseTag.erase x) :=
    closing_of_unclosed (Nat.le_zero.1 ((unclosed_erase_looseTag 0 x).trans hx.le))
  have hprose : ∀ y, proseOf y = (commandName.erase (commandWithArguments.replace
      (fun h => lastArgument h.stop) (looseTag.erase y))).filter (!isSpecial ·) := fun _ => rfl
  rw [hprose, hprose, hprose, erase_looseTag_append,
    replace_commandWithArguments_append _ _ hclosing, erase_commandName_append, List.filter_append,
    List.filter_cons_of_pos (by decide)]

end Passes

/-- Words are counted apart in front of the end of a line and behind it. -/
theorem countWords_append {x : Text} (hx : unclosed 0 x = 0) (s : Text) :
    countWords (x ++ '\n' :: s) = countWords x + countWords s := by
  rw [countWords, proseOf_append s hx, words_append_cons (by decide), List.length_append]
  rfl

/-- The words of two paragraphs are counted apart, if all braces that the first one opens are closed
in it. -/
theorem countWords_paragraphs (x y : Text) (hx : unclosed 0 x = 0) :
    countWords (x ++ "\n\n".toList ++ y) = countWords x + countWords y := by
  have hnone : countWords [] = 0 := by decide
  calc countWords (x ++ "\n\n".toList ++ y)
      = countWords (x ++ '\n' :: ([] ++ '\n' :: y)) := by simp
    _ = countWords x + countWords ([] ++ '\n' :: y) := countWords_append hx _
    _ = countWords x + (countWords [] + countWords y) := by rw [countWords_append rfl]
    _ = countWords x + countWords y := by rw [hnone, Nat.zero_add]

/-- A tag may hold braces, and when it is gone the braces of the command around it no longer pair as
they did. -/
theorem countWords_paragraphs_tag :
    unclosed 0 "\\emph\x7ba \\begin\x7bx\x7by\x7d\x7d b\x7d".toList = 0 ∧
      countWords ("\\emph\x7ba \\begin\x7bx\x7by\x7d\x7d b\x7d".toList ++ "\n\n".toList ++
        "c\x7d d".toList) = 2 + 2 :=
  ⟨by decide, by
    have hcount := countWords_paragraphs "\\emph\x7ba \\begin\x7bx\x7by\x7d\x7d b\x7d".toList
      "c\x7d d".toList (by decide)
    have hfront : countWords "\\emph\x7ba \\begin\x7bx\x7by\x7d\x7d b\x7d".toList = 2 := by decide
    have hback : countWords "c\x7d d".toList = 2 := by decide
    rw [hcount, hfront, hback]⟩

end LatexPreview
