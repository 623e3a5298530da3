import Mathlib
import LatexPreview.Convert.Preamble
import LatexPreview.Proofs.Cover.Signs
import LatexPreview.Proofs.Pattern.Arguments
import LatexPreview.Proofs.Pattern.Parts
import LatexPreview.Proofs.Source.TagLines

/-!
# Declarations around a cover page

Before math is lifted out of a document, its declarations are taken away, one kind after the other.
From a cover page each kind takes the settings that it knows, and what is left is the source of a
tree again.  What stands behind the page is left as it would be without the page; what stands in
front of it too, if no declaration there depends on what follows.

* `Takes`: a kind of declarations takes some settings, and nothing else of a page
* `Takes.leaves`: what it leaves of a page
* `exists_takes`: what each kind of declarations takes
-/

namespace LatexPreview

open Pattern Text

/-! ## Texts of which something is left -/

namespace Pattern

variable {p : Pattern} {x x' y y' : Text}

/-- The text stands apart, and another one is left of it. -/
def Leaves (p : Pattern) (x y : Text) : Prop := ∀ b, p.Apart b x ∧ p.eraseFrom b x = y

theorem Leaves.append (hx : p.Leaves x y) (hx' : p.Leaves x' y') : p.Leaves (x ++ x') (y ++ y') := by
  intro b
  refine ⟨(hx b).1.append (hx' _).1, ?_⟩
  rw [(hx b).1.eraseFrom_append, (hx b).2, (hx' _).2]

theorem leaves_of_skips (hp : p.Consumes) (h : ∀ b s, p.Skips b x s) : p.Leaves x x :=
  fun b => ⟨apart_of_skips hp (h b), eraseFrom_skips hp (h b)⟩

theorem Leads.leaves {ws : List Text} (hp : p.Leads ws) (hconsumes : p.Consumes)
    (h : ∀ w ∈ ws, ∀ s, Avoids w x s) : p.Leaves x x :=
  leaves_of_skips hconsumes fun _ s => hp.skips fun w hw => h w hw s

theorem Opens.leaves {c : Char} (hp : p.Opens c) (hx : c ∉ x) : p.Leaves x x :=
  leaves_of_skips hp.consumes fun _ s => hp.skips hx s

/-- A match at the end of a line is taken. -/
theorem leaves_line {m : Text} (hp : p.Opens '\\') (hm : m ≠ [])
    (h : ∀ b s, ∃ stop, p.at? b (m ++ '\n' :: s) = some stop ∧ stop.rest = '\n' :: s) :
    p.Leaves (m ++ ['\n']) ['\n'] := by
  have hend := hp.leaves (x := ['\n']) (by simp)
  have hcut : ∀ b s, p.slicedFrom b (m ++ ['\n'] ++ s) =
      .slice [] m (p.slicedFrom (m.getLast?.or b) (['\n'] ++ s)) := by
    intro b s
    obtain ⟨stop, hstop, hrest⟩ := h b s
    rw [List.append_assoc]
    exact slicedFrom_hit hp.consumes hm hstop hrest
  intro b
  have halone := hcut b []
  rw [List.append_nil, List.append_nil] at halone
  constructor
  · intro s
    rw [hcut, halone, (hend _).1, Sliced.append, getLast?_append_or]
  · rw [eraseFrom, halone, Sliced.outside, List.nil_append]
    exact (hend _).2

end Pattern

/-! ## Settings that are taken -/

/-- The names behind backslashes in a page and in the tag in front of it, but for those in
settings. -/
def pageNames : List Text :=
  openingWord :: ['\\'] :: (escapables ++ rowEnds true).map ([·]) ++ markupCommands ++ tagNames

/-- The pattern takes some settings, and nothing else of a page. -/
structure Takes (p : Pattern) (taken : PageSetting → Bool) (ws : List Text) : Prop where
  opens : p.Opens '\\'
  edges : ∀ b b', p.EdgesAgree b b'
  leads : p.Leads (ws.map ('\\' :: ·))
  words : ∀ w ∈ ws, w ≠ [] ∧ '\\' ∉ w
  clash : ∀ w ∈ ws, ∀ n ∈ pageNames, Clash n w
  left : ∀ x, taken x = false → ∀ w ∈ ws, ∀ n ∈ x.names, Clash n w
  hit : ∀ x, taken x = true → ∀ b s,
    ∃ stop, p.at? b (x.text ++ '\n' :: s) = some stop ∧ stop.rest = '\n' :: s

/-- The page without the settings that are taken. -/
def Markup.without {spaced : Bool} (taken : PageSetting → Bool) : Markup spaced → Markup spaced
  | nil => nil
  | char c plain more => char c plain (more.without taken)
  | symbol c escapable more => symbol c escapable (more.without taken)
  | command name known more => command name known (more.without taken)
  | rowEnd c behind more => rowEnd c behind (more.without taken)
  | group inner more => group (inner.without taken) (more.without taken)
  | env name known inner more => env name known (inner.without taken) (more.without taken)
  | setting s more =>
    if taken s then char '\n' (by simp) (more.without taken) else setting s (more.without taken)

/-- What holds of all parts of a page and of what is left of them, holds of the page. -/
theorem Markup.without_rel {spaced : Bool} {taken : PageSetting → Bool} {R : Text → Text → Prop}
    (nil : R [] []) (append : ∀ {x y x' y'}, R x y → R x' y' → R (x ++ x') (y ++ y'))
    (char : ∀ c, '\\' ≠ c → '$' ≠ c → R [c] [c])
    (word : ∀ name ∈ pageNames, '\\' ∉ name → R ('\\' :: name) ('\\' :: name))
    (row : ∀ c ∈ rowEnds true, R ['\\', '\\', c] ['\\', '\\', c])
    (setting : ∀ x : PageSetting, R (x.text ++ ['\n']) (if taken x then ['\n'] else x.text ++ ['\n']))
    (m : Markup spaced) : R m.text (m.without taken).text := by
  induction m with
  | nil => exact nil
  | char c hc more ih =>
    refine append (char c ?_ ?_) ih
    · rintro rfl
      exact hc (by simp)
    · rintro rfl
      exact hc (by simp)
  | symbol c hc more ih =>
    have hplain : '\\' ∉ [c] := by
      rintro hmem
      rw [← List.mem_singleton.1 hmem] at hc
      exact absurd hc (by decide)
    exact append (word [c] (by simp [pageNames, hc]) hplain) ih
  | command name hname more ih =>
    exact append (word name (by simp [pageNames, hname])
      (not_mem_of_known (List.mem_append_left _ hname))) ih
  | rowEnd c hc more ih =>
    have hmem : c ∈ rowEnds true := by
      cases spaced
      · exact List.mem_append_left _ (by simpa [rowEnds] using hc)
      · exact hc
    exact append (row c hmem) ih
  | group inner more ihinner ihmore =>
    exact append (append (append (char '{' (by decide) (by decide)) ihinner)
      (char '}' (by decide) (by decide))) ihmore
  | env name hname inner more ihinner ihmore =>
    have hplain := not_mem_of_known (List.mem_append_right _ hname)
    have htag : ∀ tag ∈ ["begin".toList, "end".toList],
        R ('\\' :: (tag ++ braced name)) ('\\' :: (tag ++ braced name)) := by
      intro tag htag
      have hmem : tag ++ braced name ∈ tagNames := by
        refine List.mem_flatMap.2 ⟨name, hname, ?_⟩
        simp only [List.mem_cons, List.not_mem_nil, or_false] at htag
        rcases htag with rfl | rfl <;> simp
      refine word _ (by simp [pageNames, hmem]) ?_
      simp only [List.mem_cons, List.not_mem_nil, or_false] at htag
      rcases htag with rfl | rfl <;> simp [braced, hplain]
    have hbegin : R (beginTag name) (beginTag name) := htag "begin".toList (by simp)
    have hend : R (endTag name) (endTag name) := htag "end".toList (by simp)
    exact append (append (append hbegin ihinner) hend) ihmore
  | setting x more ih =>
    have hall := append (setting x) ih
    rw [Markup.without]
    cases htaken : taken x <;> simpa [Markup.text, htaken] using hall

namespace Takes

variable {p : Pattern} {taken : PageSetting → Bool} {ws : List Text} {spaced : Bool}

theorem leaves_commands (h : Takes p taken ws) {x : Text} {names : List Text}
    (hx : ∀ s, Commands names x s) (hnames : ∀ w ∈ ws, ∀ n ∈ names, Clash n w) : p.Leaves x x := by
  refine h.leads.leaves h.opens.consumes fun w hw s => ?_
  obtain ⟨w, hmem, rfl⟩ := List.mem_map.1 hw
  exact (hx s).avoids (h.words w hmem).1 (hnames w hmem)

theorem leaves_word (h : Takes p taken ws) {name : Text} (hname : name ∈ pageNames)
    (hplain : '\\' ∉ name) : p.Leaves ('\\' :: name) ('\\' :: name) :=
  h.leaves_commands (fun _ => commands_word (List.mem_singleton_self name) hplain) fun w hw n hn => by
    rw [List.mem_singleton.1 hn]
    exact h.clash w hw name hname

/-- What is left of a page. -/
theorem leaves (h : Takes p taken ws) (m : Markup spaced) :
    p.Leaves m.text (m.without taken).text := by
  refine Markup.without_rel (R := p.Leaves) (leaves_of_skips h.opens.consumes fun _ _ => trivial)
    Leaves.append (fun c hc _ => h.opens.leaves fun hmem => hc (List.mem_singleton.1 hmem))
    (fun _ => h.leaves_word) (fun c hc => ?row) (fun x => ?setting) m
  case row =>
    have hcommands : ∀ s, Commands [['\\'], [c]] ['\\', '\\', c] s := by
      intro s
      refine ⟨fun _ => .inr ⟨['\\'], by simp, List.prefix_append ['\\'] _⟩,
        fun _ => .inr ⟨[c], by simp, List.prefix_append [c] _⟩, ?_, trivial⟩
      rintro rfl
      exact absurd hc (by decide)
    refine h.leaves_commands hcommands fun w hw n hn => ?_
    simp only [List.mem_cons, List.not_mem_nil, or_false] at hn
    rcases hn with rfl | rfl
    · exact h.clash w hw _ (by simp [pageNames])
    · exact h.clash w hw _ (by simp [pageNames, hc])
  case setting =>
    cases htaken : taken x with
    | true =>
      refine leaves_line h.opens (fun hnil => ?_) (h.hit x htaken)
      obtain ⟨stop, hstop, hrest⟩ := h.hit x htaken none []
      have hless := h.opens.consumes _ _ (matches_of_at? hstop)
      rw [hnil, hrest] at hless
      exact absurd hless (lt_irrefl _)
    | false =>
      exact (h.leaves_commands x.commands_names (h.left x htaken)).append (h.opens.leaves (by simp))

end Takes

/-! ## The settings of a page are declarations -/

theorem Measure.noBraces (w : Measure) : ∀ c ∈ w.1, c ∉ ['{', '}'] := by
  intro c hc hmem
  simp only [List.mem_cons, List.not_mem_nil, or_false] at hmem
  rcases hmem with rfl | rfl
  · exact w.not_mem (by decide) (by decide) hc
  · exact w.not_mem (by decide) (by decide) hc

section Hits

variable (b : Option Char) (s : Text)

/-- A command with an argument that is the rest of its line. -/
theorem exists_at?_command (w : String) {x : Text} (hline : '\n' ∉ x) (hbrace : '}' ∉ x) :
    ∃ stop, (command w ++ looseOption ++ looseArgument).at? b
      ('\\' :: w.toList ++ (braced x ++ '\n' :: s)) = some stop ∧ stop.rest = '\n' :: s := by
  have hoption : (one (· == '[') ++ fewest inLine ++ one (· == ']')).Opens '[' :=
    ((opens_one '[').append _).append _
  refine exists_at? ⟨⟨steady_lit _, ⟨⟨trivial, trivial, consumes_one _⟩, trivial⟩, trivial⟩,
    steady_looseArgument⟩ ?_ ?_
  · obtain ⟨m, hm, hrest⟩ := exists_matches_lit (w := '\\' :: w.toList)
      (r := braced x ++ '\n' :: s) (s := ⟨b, _, []⟩) rfl
    obtain ⟨t, ht, -⟩ := exists_matches_looseArgument hrest hline
    exact ⟨t, m, ⟨m, hm, .inr rfl⟩, ht⟩
  · rintro t ⟨m₂, ⟨m₁, hm₁, hm₂⟩, ht⟩
    have hrest : m₁.rest = braced x ++ '\n' :: s :=
      (List.append_cancel_left (matches_lit hm₁)).symm
    obtain rfl := eq_of_optional hoption hm₂ hrest (by decide)
    obtain ⟨v, hv, hvline⟩ := matches_looseArgument ht
    exact eq_of_braced_line hbrace hvline (hrest.symm.trans hv)

theorem exists_at?_package (name : Measure) :
    ∃ stop, (command "usepackage" ++ looseOption ++ looseArgument).at? b
      ((PageSetting.package name).text ++ '\n' :: s) = some stop ∧ stop.rest = '\n' :: s := by
  have htext : (PageSetting.package name).text ++ '\n' :: s =
      '\\' :: "usepackage".toList ++ (braced name.1 ++ '\n' :: s) := List.append_assoc _ _ _
  rw [htext]
  exact exists_at?_command b s "usepackage" (name.not_mem (by decide) (by decide))
    (name.not_mem (by decide) (by decide))

/-- Vertical or horizontal space. -/
def spacePattern : Pattern :=
  one (· == '\\') ++ one (fun c => c == 'v' || c == 'h') ++ word "space"
    ++ optional (one (· == '*')) ++ looseArgument

theorem exists_at?_space (size : Measure) :
    ∃ stop, spacePattern.at? b ((PageSetting.space size).text ++ '\n' :: s) = some stop ∧
      stop.rest = '\n' :: s := by
  have htext : (PageSetting.space size).text ++ '\n' :: s =
      '\\' :: 'v' :: ("space".toList ++ (braced size.1 ++ '\n' :: s)) := List.append_assoc _ _ _
  have hline : '\n' ∉ size.1 := size.not_mem (by decide) (by decide)
  have hbrace : '}' ∉ size.1 := size.not_mem (by decide) (by decide)
  rw [htext]
  refine exists_at? ⟨⟨⟨⟨trivial, trivial⟩, steady_lit _⟩, trivial, trivial⟩, steady_looseArgument⟩
    ?_ ?_
  · obtain ⟨m, hm, hrest⟩ := exists_matches_lit (w := "space".toList)
      (r := braced size.1 ++ '\n' :: s)
      (s := (Cursor.next ⟨b, '\\' :: 'v' :: _, []⟩ '\\' ('v' :: _)).next 'v' _) rfl
    obtain ⟨t, ht, -⟩ := exists_matches_looseArgument hrest hline
    exact ⟨t, m, ⟨m, ⟨_, ⟨_, ⟨'\\', _, rfl, rfl, rfl⟩, ⟨'v', _, rfl, rfl, rfl⟩⟩, hm⟩, .inr rfl⟩, ht⟩
  · rintro t ⟨m₄, ⟨m₃, ⟨m₂, ⟨m₁, ⟨c, r, hc, -, rfl⟩, ⟨d, r', hd, -, rfl⟩⟩, hm₃⟩, hm₄⟩, ht⟩
    obtain ⟨-, rfl⟩ := List.cons.inj hc
    obtain ⟨-, rfl⟩ := List.cons.inj hd
    have hrest : m₃.rest = braced size.1 ++ '\n' :: s :=
      (List.append_cancel_left (matches_lit hm₃)).symm
    obtain rfl := eq_of_optional (opens_one '*') hm₄ hrest (by decide)
    obtain ⟨w, hw, hwline⟩ := matches_looseArgument ht
    exact eq_of_braced_line hbrace hwline (hrest.symm.trans hw)

theorem stretch_text (factor : Measure) : (PageSetting.stretch factor).text ++ '\n' :: s =
    '\\' :: ("re".toList ++ ("newcommand".toList ++
      (braced "\\arraystretch".toList ++ (braced factor.1 ++ '\n' :: s)))) := by
  rw [← List.append_assoc (braced _)]
  exact List.append_assoc _ _ _

theorem exists_matches_stretch (factor : Measure) :
    ∃ t, newCommand.Matches ⟨b, (PageSetting.stretch factor).text ++ '\n' :: s, []⟩ t := by
  rw [stretch_text]
  obtain ⟨m₁, hm₁, hrest₁⟩ := exists_matches_lit (w := "re".toList)
    (s := Cursor.next ⟨b, '\\' :: _, []⟩ '\\' _) rfl
  obtain ⟨m₂, hm₂, hrest₂⟩ := exists_matches_lit (w := "newcommand".toList) hrest₁
  have hline : '\n' ∉ "\\arraystretch".toList := by decide
  obtain ⟨m₃, hm₃, hrest₃⟩ := exists_matches_looseArgument hrest₂ hline
  obtain ⟨t, ht⟩ := exists_matches_longArgument hrest₃ factor.noBraces
  exact ⟨t, m₃, ⟨m₃, ⟨m₂, ⟨m₂, ⟨m₁, ⟨_, ⟨'\\', _, rfl, rfl, rfl⟩, .inl hm₁⟩, hm₂⟩, .inr rfl⟩, hm₃⟩,
    .inr rfl⟩, ht⟩

/-- The first argument of the declaration ends at its first brace: had it reached further, no second
one would follow. -/
theorem rest_of_stretch {factor : Measure} {v : Text} {m m' t : Cursor}
    (hsplit : "\\arraystretch".toList ++ '}' :: (braced factor.1 ++ '\n' :: s) = v ++ '}' :: m.rest)
    (hvline : '\n' ∉ v)
    (hoption : (optional (one (· == '[') ++ many1 (one isDigit) ++ one (· == ']'))).Matches m m')
    (hbody : (longArgument "body").Matches m' t) : t.rest = '\n' :: s := by
  have hname : '}' ∉ "\\arraystretch".toList := by decide
  have hbrace : '}' ∉ factor.1 := factor.not_mem (by decide) (by decide)
  have hdigits : (one (· == '[') ++ many1 (one isDigit) ++ one (· == ']')).Opens '[' :=
    ((opens_one '[').append _).append _
  by_cases hmem : '}' ∈ v
  · exfalso
    obtain ⟨u, x, rfl, hu⟩ := List.eq_append_cons_of_mem hmem
    rw [List.append_assoc] at hsplit
    obtain ⟨-, hsecond⟩ := eq_of_append_cons_eq hname hu hsplit
    have hend : m.rest = '\n' :: s := by
      cases x with
      | nil => exact absurd (List.cons.inj hsecond).1 (by decide)
      | cons d x =>
        obtain ⟨rfl, -⟩ := List.cons.inj hsecond
        exact eq_of_braced_line hbrace (fun hx => hvline (by simp [hx])) hsecond
    obtain rfl := eq_of_optional hdigits hoption hend (by decide)
    obtain ⟨w, hw, -⟩ := matches_longArgument hbody
    exact absurd (List.cons.inj (hend.symm.trans hw)).1 (by decide)
  · obtain ⟨-, hsecond⟩ := eq_of_append_cons_eq hname hmem hsplit
    have hrest : m.rest = '{' :: (factor.1 ++ ['}'] ++ '\n' :: s) := hsecond.symm
    obtain rfl := eq_of_optional hdigits hoption hrest (by decide)
    exact rest_of_longArgument hbody hsecond.symm factor.noBraces

theorem exists_at?_stretch (factor : Measure) :
    ∃ stop, newCommand.at? b ((PageSetting.stretch factor).text ++ '\n' :: s) = some stop ∧
      stop.rest = '\n' :: s := by
  refine exists_at? ⟨⟨⟨⟨⟨⟨trivial, steady_lit _, trivial⟩, steady_lit _⟩, trivial, trivial⟩,
    steady_looseArgument⟩, ⟨⟨trivial, trivial, trivial, consumes_one _⟩, trivial⟩, trivial⟩,
    steady_longArgument _⟩ (exists_matches_stretch b s factor) ?_
  rintro t ⟨m₆, ⟨m₅, ⟨m₄, ⟨m₃, ⟨m₂, ⟨m₁, hslash, hre⟩, hcommand⟩, hstar⟩, hargument⟩, hoption⟩, hbody⟩
  have hslash := matches_one_eq hslash
  rw [stretch_text] at hslash
  have hrest₁ := (List.cons.inj hslash).2
  have hrest₃ : m₃.rest = braced "\\arraystretch".toList ++ (braced factor.1 ++ '\n' :: s) := by
    have hword := matches_lit hcommand
    rcases hre with hre | rfl
    · rw [← List.append_cancel_left (hrest₁.trans (matches_lit hre))] at hword
      exact (List.append_cancel_left hword).symm
    · rw [hword] at hrest₁
      exact absurd (List.cons.inj hrest₁).1 (by decide)
  obtain rfl := eq_of_optional (opens_one '*') hstar hrest₃ (by decide)
  obtain ⟨v, hv, hvline⟩ := matches_looseArgument hargument
  have hsplit : "\\arraystretch".toList ++ '}' :: (braced factor.1 ++ '\n' :: s) =
      v ++ '}' :: m₅.rest := by
    simpa [braced] using hrest₃.symm.trans hv
  exact rest_of_stretch s hsplit hvline hoption hbody

theorem exists_at?_newPage :
    ∃ stop, (one (· == '\\') ++
      anyOf (["centering", "noindent", "newpage", "clearpage"].map word) ++ wordEnd).at? b
        (PageSetting.newPage.text ++ '\n' :: s) = some stop ∧ stop.rest = '\n' :: s := by
  exact ⟨_, rfl, rfl⟩

end Hits

/-! ## The kinds of declarations -/

/-- None of the words goes together with one of the names. -/
def clashing (ws names : List Text) : Bool :=
  ws.all fun w => decide (w ≠ []) && decide ('\\' ∉ w) && names.all fun n => decide (Clash n w)

theorem clash_of_clashing {ws names : List Text} (h : clashing ws names = true) {w : Text}
    (hw : w ∈ ws) : (w ≠ [] ∧ '\\' ∉ w) ∧ ∀ n ∈ names, Clash n w := by
  have hword := List.all_eq_true.1 h w hw
  simp only [Bool.and_eq_true, decide_eq_true_eq, List.all_eq_true] at hword
  exact hword

/-- Declarations whose names are not among those of other settings take no others. -/
theorem takes_of_clashing {p : Pattern} {taken : PageSetting → Bool} {ws : List Text}
    (others : List Text) (hopens : p.Opens '\\') (hedges : ∀ b b', p.EdgesAgree b b')
    (hleads : p.Leads (ws.map ('\\' :: ·))) (hwords : clashing ws (pageNames ++ others) = true)
    (hothers : ∀ x, taken x = false → ∀ n ∈ x.names, n ∈ others)
    (hhit : ∀ x, taken x = true → ∀ b s,
      ∃ stop, p.at? b (x.text ++ '\n' :: s) = some stop ∧ stop.rest = '\n' :: s) :
    Takes p taken ws where
  opens := hopens
  edges := hedges
  leads := hleads
  words := fun _ hw => (clash_of_clashing hwords hw).1
  clash := fun _ hw n hn => (clash_of_clashing hwords hw).2 n (List.mem_append_left _ hn)
  left := fun x htaken _ hw n hn =>
    (clash_of_clashing hwords hw).2 n (List.mem_append_right _ (hothers x htaken n hn))
  hit := hhit

theorem PageSetting.mem_settingNames (x : PageSetting) : ∀ n ∈ x.names, n ∈ settingNames := by
  intro n hn
  cases x <;> simp only [names, List.mem_cons, List.not_mem_nil, or_false] at hn
  · exact hn ▸ by decide
  · exact hn ▸ by decide
  · rcases hn with rfl | rfl <;> decide
  · exact hn ▸ by decide

/-- Declarations whose names are not among those of settings take nothing. -/
theorem takes_nothing {p : Pattern} {ws : List Text} (hopens : p.Opens '\\')
    (hedges : ∀ b b', p.EdgesAgree b b') (hleads : p.Leads (ws.map ('\\' :: ·)))
    (hwords : clashing ws (pageNames ++ settingNames) = true) : Takes p (fun _ => false) ws :=
  takes_of_clashing settingNames hopens hedges hleads hwords (fun x _ => x.mem_settingNames)
    fun _ htaken => absurd htaken (by simp)

section Leads

variable {p : Pattern}

theorem leads_commandNamed (name : String) : (command name).Leads ([name.toList].map ('\\' :: ·)) :=
  leads_command name

/-- A backslash and a word, with or without another one in front of it. -/
theorem leads_prefixed (a w : String) : (one (· == '\\') ++ optional (word a) ++ word w).Leads
    ([a.toList ++ w.toList, w.toList].map ('\\' :: ·)) := by
  rintro s t ⟨m₂, ⟨m₁, hslash, hfirst⟩, hsecond⟩
  have hrest := matches_one_eq hslash
  rcases hfirst with hfirst | rfl
  · refine ⟨'\\' :: (a.toList ++ w.toList), by simp, [], ?_⟩
    rw [hrest, show m₁.rest = a.toList ++ m₂.rest from matches_lit hfirst,
      show m₂.rest = w.toList ++ t.rest from matches_lit hsecond]
    simp
  · refine ⟨'\\' :: w.toList, by simp, [], ?_⟩
    rw [hrest, show m₂.rest = w.toList ++ t.rest from matches_lit hsecond]
    simp

theorem leads_spacePattern : spacePattern.Leads
    (["vspace".toList, "hspace".toList].map ('\\' :: ·)) := by
  refine Leads.append (Leads.append ?_ _) _
  rintro s t ⟨m₂, ⟨m₁, hslash, ⟨c, r, hr, hc, rfl⟩⟩, hword⟩
  have hrest := matches_one_eq hslash
  have hsecond : r = "space".toList ++ t.rest := matches_lit hword
  refine ⟨'\\' :: c :: "space".toList, ?_, [], by rw [hrest, hr, hsecond]; simp⟩
  have hcases : c = 'v' ∨ c = 'h' := by simpa using hc
  rcases hcases with rfl | rfl
  · exact List.mem_cons_self
  · exact List.mem_cons_of_mem _ List.mem_cons_self

theorem leads_slash {ws : List Text} (hp : p.Leads ws) :
    (one (· == '\\') ++ p).Leads (ws.map ('\\' :: ·)) := by
  rintro s t ⟨m, hslash, hlater⟩
  obtain ⟨w, hw, x, hx⟩ := hp _ _ hlater
  refine ⟨'\\' :: w, List.mem_map_of_mem hw, x, ?_⟩
  rw [matches_one_eq hslash, hx]
  rfl

end Leads

theorem edgesAgree_looseArgument (b b' : Option Char) : looseArgument.EdgesAgree b b' :=
  ⟨⟨trivial, trivial⟩, trivial⟩

theorem edgesAgree_looseOption (b b' : Option Char) : looseOption.EdgesAgree b b' :=
  ⟨⟨⟨trivial, trivial⟩, trivial⟩, trivial⟩

theorem edgesAgree_longArgument (label : String) (b b' : Option Char) :
    (longArgument label).EdgesAgree b b' :=
  ⟨⟨trivial, trivial, ⟨trivial, trivial⟩, trivial⟩, trivial⟩

/-- The declarations in front of the tags that begin and end the document are removed. -/
def packageDeclarations : List (Pattern × Extent) := declarations.take 2

/-- The declarations behind the tags that begin and end the document are removed. -/
def layoutDeclarations : List (Pattern × Extent) := declarations.drop 4

/-- The tags that begin and end the document. -/
def documentTags : List (Pattern × Extent) :=
  [(documentOpening, .firstOnly), (closing "document", .firstOnly)]

theorem declarations_eq :
    declarations = packageDeclarations ++ (documentTags ++ layoutDeclarations) := rfl

theorem takes_package : Takes (command "usepackage" ++ looseOption ++ looseArgument)
    (fun x => x matches .package _) ["usepackage".toList] := by
  refine takes_of_clashing (["vspace", "renewcommand", "arraystretch", "newpage"].map (·.toList))
    (((opens_command _).append _).append _) (fun b b' => ⟨⟨edgesAgree_lit _,
      edgesAgree_looseOption b b'⟩, edgesAgree_looseArgument b b'⟩)
    (((leads_commandNamed _).append _).append _) (by decide) (fun x htaken n hn => ?_)
    fun x htaken b s => ?_
  · cases x with
    | package name => exact absurd htaken (by simp)
    | space | newPage =>
      rw [List.mem_singleton.1 hn]
      decide
    | stretch factor =>
      simp only [PageSetting.names, List.mem_cons, List.not_mem_nil, or_false] at hn
      rcases hn with rfl | rfl <;> decide
  · cases x with
    | package name => exact exists_at?_package b s name
    | space | stretch | newPage => exact absurd htaken (by simp)

theorem takes_space : Takes spacePattern (fun x => x matches .space _)
    ["vspace".toList, "hspace".toList] := by
  refine takes_of_clashing (["usepackage", "renewcommand", "arraystretch", "newpage"].map
    (·.toList)) (((((opens_one '\\').append _).append _).append _).append _)
    (fun b b' => ⟨⟨⟨⟨trivial, trivial⟩, edgesAgree_lit _⟩, trivial, trivial⟩,
      edgesAgree_looseArgument b b'⟩) leads_spacePattern (by decide)
    (fun x htaken n hn => ?_) fun x htaken b s => ?_
  · cases x with
    | space size => exact absurd htaken (by simp)
    | package | newPage =>
      rw [List.mem_singleton.1 hn]
      decide
    | stretch factor =>
      simp only [PageSetting.names, List.mem_cons, List.not_mem_nil, or_false] at hn
      rcases hn with rfl | rfl <;> decide
  · cases x with
    | space size => exact exists_at?_space b s size
    | package | stretch | newPage => exact absurd htaken (by simp)

theorem takes_stretch : Takes newCommand (fun x => x matches .stretch _)
    ["renewcommand".toList, "newcommand".toList] := by
  refine takes_of_clashing (["usepackage", "vspace", "newpage"].map (·.toList))
    (((((((opens_one '\\').append _).append _).append _).append _).append _).append _)
    (fun b b' => ⟨⟨⟨⟨⟨⟨trivial, edgesAgree_lit _, trivial⟩, edgesAgree_lit _⟩, trivial, trivial⟩,
      edgesAgree_looseArgument b b'⟩, ⟨⟨trivial, trivial, trivial⟩, trivial⟩, trivial⟩,
      edgesAgree_longArgument "body" b b'⟩)
    (((((leads_prefixed "re" "newcommand").append _).append _).append _).append _)
    (by decide) (fun x htaken n hn => ?_) fun x htaken b s => ?_
  · cases x with
    | stretch factor => exact absurd htaken (by simp)
    | package | space | newPage =>
      rw [List.mem_singleton.1 hn]
      decide
  · cases x with
    | stretch factor => exact exists_at?_stretch b s factor
    | package | space | newPage => exact absurd htaken (by simp)

theorem takes_newPage : Takes (one (· == '\\') ++
    anyOf (["centering", "noindent", "newpage", "clearpage"].map word) ++ wordEnd)
    (fun x => x matches .newPage)
    (["centering", "noindent", "newpage", "clearpage"].map (·.toList)) := by
  refine takes_of_clashing (["usepackage", "vspace", "renewcommand", "arraystretch"].map
    (·.toList)) (((opens_one '\\').append _).append _)
    (fun b b' => ⟨⟨trivial, ?_⟩, fun _ => rfl⟩)
    ((leads_slash (@leads_anyOf (["centering", "noindent", "newpage", "clearpage"].map
      (·.toList)) (by simp))).append _) (by decide) (fun x htaken n hn => ?_)
    fun x htaken b s => ?_
  · exact ⟨edgesAgree_lit _, edgesAgree_lit _, edgesAgree_lit _, edgesAgree_lit _⟩
  · cases x with
    | newPage => exact absurd htaken (by simp)
    | package | space =>
      rw [List.mem_singleton.1 hn]
      decide
    | stretch factor =>
      simp only [PageSetting.names, List.mem_cons, List.not_mem_nil, or_false] at hn
      rcases hn with rfl | rfl <;> decide
  · cases x with
    | newPage => exact exists_at?_newPage b s
    | package | space | stretch => exact absurd htaken (by simp)

/-- A command that no setting uses, with arguments. -/
theorem exists_takes_command {name : String} {q : Pattern}
    (hname : clashing [name.toList] (pageNames ++ settingNames) = true)
    (hq : ∀ b b', q.EdgesAgree b b') : ∃ taken ws, Takes (command name ++ q) taken ws :=
  ⟨_, _, takes_nothing ((opens_command name).append q) (fun b b' => ⟨edgesAgree_lit _, hq b b'⟩)
    ((leads_commandNamed name).append q) hname⟩

/-- Every kind of declarations that is removed wherever it stands takes some settings of a page, and
nothing else of it. -/
theorem exists_takes {e : Pattern × Extent} (he : e ∈ packageDeclarations ++ layoutDeclarations) :
    e.2 = .all ∧ ∃ taken ws, Takes e.1 taken ws := by
  have hargument := edgesAgree_looseArgument
  simp only [packageDeclarations, layoutDeclarations, declarations, List.take_succ_cons,
    List.take_zero, List.drop_succ_cons, List.drop_zero, List.cons_append, List.nil_append,
    List.mem_cons, List.not_mem_nil, or_false] at he
  rcases he with rfl | rfl | rfl | rfl | rfl | rfl | rfl | rfl | rfl | rfl | rfl
  · exact ⟨rfl, _, _, takes_nothing
      (((opens_command _).append _).append _)
      (fun b b' => ⟨⟨edgesAgree_lit _, edgesAgree_looseOption b b'⟩, hargument b b'⟩)
      (((leads_commandNamed _).append _).append _) (by decide)⟩
  · exact ⟨rfl, _, _, takes_package⟩
  · exact ⟨rfl, _, _, takes_nothing
      ((((opens_command _).append _).append _).append _)
      (fun b b' => ⟨⟨⟨edgesAgree_lit _, hargument b b'⟩, hargument b b'⟩, hargument b b'⟩)
      ((((leads_commandNamed _).append _).append _).append _) (by decide)⟩
  · exact ⟨rfl, exists_takes_command (by decide) hargument⟩
  · exact ⟨rfl, _, _, takes_nothing
      (((opens_command _).append _).append _)
      (fun b b' => ⟨⟨edgesAgree_lit _, hargument b b'⟩, hargument b b'⟩)
      (((leads_commandNamed _).append _).append _) (by decide)⟩
  · exact ⟨rfl, _, _, takes_nothing
      ((((opens_one _).append _).append _).append _)
      (fun b b' => ⟨⟨⟨trivial, edgesAgree_lit _, trivial⟩, edgesAgree_lit _⟩, hargument b b'⟩)
      ((leads_prefixed "this" "pagestyle").append _) (by decide)⟩
  · exact ⟨rfl, exists_takes_command (by decide) hargument⟩
  · exact ⟨rfl, _, _, takes_space⟩
  · exact ⟨rfl, _, _, takes_stretch⟩
  · exact ⟨rfl, exists_takes_command (by decide) hargument⟩
  · exact ⟨rfl, _, _, takes_newPage⟩

end LatexPreview
