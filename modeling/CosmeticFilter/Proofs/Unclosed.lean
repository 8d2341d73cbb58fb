import CosmeticFilter.Proofs.Inert
import CosmeticFilter.Proofs.Target

/-!
# Parentheses that stay open

The arguments of plain pseudo-classes are copied with their parentheses. Outside of attributes every parenthesis that
opens in a plain part is closed in the same part (`Text.Matched`), with one exception: the end of the input does not
check the parentheses of the selector that it completes. `SelectorList.parse_unclosed` says that a list has a
parenthesis without a partner exactly if the input ends inside of parentheses of plain text, that this parenthesis then
stands in the last part of the last selector of the outermost list, and that the end inside of such parentheses is
refused exactly where an attribute or the argument of an extended pseudo-class is open, too.

`Text.matched_iff` turns partners into the number of open parentheses, which the compiler tracks (`State.Tracked`). A
plain part becomes complete, except at the end of the input, only where this number is zero
(`State.Plain.growth_outside`).
-/

namespace CosmeticFilter

open Selector

/-! ### Partners of parentheses -/

namespace Text

/-- Every parenthesis that opens outside of attributes has a later one outside of attributes that closes as many as were
opened since. -/
def Matched (t : Text) : Prop :=
  ∀ before rest, t = before ++ Mark.parenLeft :: rest → (Context.after before).bracket = none →
    ∃ inner more, rest = inner ++ Mark.parenRight :: more ∧
      (Context.after (before ++ Mark.parenLeft :: inner)).bracket = none ∧
      (Context.after (before ++ Mark.parenLeft :: inner)).parenDepth = (Context.after before).parenDepth + 1

end Text

namespace Selector.Context

variable {ctx : Context} {c : Char} {t before rest : Text} {depth : Nat}

/-- Only parentheses outside of attributes count. -/
theorem parenDepth_step (ctx : Context) (c : Char) :
    ctx.bracket = none ∧ c = Mark.parenLeft ∧ (ctx.step c).parenDepth = ctx.parenDepth + 1 ∨
      ctx.bracket = none ∧ c = Mark.parenRight ∧ (ctx.step c).parenDepth = ctx.parenDepth - 1 ∨
      (ctx.step c).parenDepth = ctx.parenDepth := by
  cases hbracket : ctx.bracket with
  | some body => exact .inr (.inr (by simp [step, hbracket]))
  | none =>
    by_cases hleft : c = Mark.parenLeft
    · subst hleft
      exact .inl ⟨rfl, rfl, (step_parenLeft hbracket).2⟩
    · by_cases hright : c = Mark.parenRight
      · subst hright
        exact .inr (.inl ⟨rfl, rfl, (step_parenRight hbracket).2⟩)
      · exact .inr (.inr (by simp [step, hbracket, hleft, hright]))

/-- Below the number of parentheses that are open at the end, each number is left at some place for good. -/
theorem exists_parenLeft (h : depth < (after t).parenDepth) : ∃ before rest, t = before ++ Mark.parenLeft :: rest ∧
    (after before).bracket = none ∧ (after before).parenDepth = depth ∧
    ∀ inner, inner <+: rest → depth < (after (before ++ Mark.parenLeft :: inner)).parenDepth := by
  induction t using List.reverseRecOn with
  | nil => cases h
  | append_singleton t c ih =>
    rw [after_concat] at h
    by_cases hbefore : depth < (after t).parenDepth
    · obtain ⟨before, rest, rfl, hbracket, hdepth, hinner⟩ := ih hbefore
      refine ⟨before, rest ++ [c], by simp, hbracket, hdepth, fun inner hstart => ?_⟩
      rcases List.prefix_concat_iff.1 hstart with rfl | hstart
      · rwa [← List.cons_append, ← List.append_assoc, after_concat]
      · exact hinner inner hstart
    · rcases parenDepth_step (after t) c with ⟨hbracket, rfl, hstep⟩ | ⟨-, -, hstep⟩ | hstep
      · refine ⟨t, [], rfl, hbracket, by omega, fun inner hstart => ?_⟩
        rw [List.prefix_nil.1 hstart, after_concat]
        exact h
      · omega
      · omega

/-- Where fewer parentheses are open in the end, one is closed in between. -/
theorem exists_parenRight (hbefore : depth < (after before).parenDepth)
    (hend : (after (before ++ rest)).parenDepth ≤ depth) : ∃ inner more, rest = inner ++ Mark.parenRight :: more ∧
    (after (before ++ inner)).bracket = none ∧ (after (before ++ inner)).parenDepth = depth + 1 := by
  induction rest generalizing before with
  | nil =>
    rw [List.append_nil] at hend
    omega
  | cons c rest ih =>
    rw [List.append_cons] at hend
    by_cases hnext : depth < (after (before ++ [c])).parenDepth
    · obtain ⟨inner, more, rfl, hbracket, hdepth⟩ := ih hnext hend
      exact ⟨c :: inner, more, rfl, by rwa [List.append_cons], by rwa [List.append_cons]⟩
    · rw [after_concat] at hnext
      rcases parenDepth_step (after before) c with ⟨-, -, hstep⟩ | ⟨hbracket, rfl, hstep⟩ | hstep
      · omega
      · exact ⟨[], rest, rfl, by rwa [List.append_nil], by rw [List.append_nil]; omega⟩
      · omega

end Selector.Context

namespace Text

open Context

theorem matched_iff {t : Text} : Matched t ↔ (after t).parenDepth = 0 := by
  constructor
  · intro h
    by_contra hdepth
    obtain ⟨before, rest, rfl, hbracket, hzero, hinner⟩ := exists_parenLeft (Nat.pos_of_ne_zero hdepth)
    obtain ⟨inner, more, rfl, hbracket', hclosed⟩ := h before rest rfl hbracket
    have hafter := hinner (inner ++ [Mark.parenRight]) ⟨more, by simp⟩
    rw [← List.cons_append, ← List.append_assoc, after_concat, (step_parenRight hbracket').2] at hafter
    omega
  · rintro hzero before rest rfl hbracket
    have hopened : (after (before ++ [Mark.parenLeft])).parenDepth = (after before).parenDepth + 1 := by
      rw [after_concat, (step_parenLeft hbracket).2]
    have hend : (after (before ++ [Mark.parenLeft] ++ rest)).parenDepth ≤ (after before).parenDepth := by
      rw [← List.append_cons, hzero]
      exact Nat.zero_le _
    obtain ⟨inner, more, rfl, hbracket', hdepth⟩ := exists_parenRight (by omega) hend
    rw [← List.append_cons] at hbracket' hdepth
    exact ⟨inner, more, rfl, hbracket', hdepth⟩

instance (t : Text) : Decidable (Matched t) := decidable_of_iff _ matched_iff.symm

end Text

/-! ### Parts become complete outside of parentheses -/

namespace Selector

theorem Frame.matched_anchorText {f : Frame} (name : Text) (h : (Context.after f.buffer).IsOutside) :
    Text.Matched (f.anchorText name) := by
  have hstar : Text.Matched (f.buffer ++ PseudoClass.anyElement) := by
    rw [Text.matched_iff, Context.after_append, (Context.foldl_step_plain h.1 (by decide)).2]
    exact h.2
  rw [Frame.anchorText]
  split
  · decide
  · split
    · decide
    · split
      · decide
      · split
        · exact hstar
        · exact Text.matched_iff.2 h.2

namespace State

variable {config : Config} {s final : State} {tokens : List Token}

theorem Tracked.matched_iff (h : s.Tracked) : Text.Matched s.frame.buffer ↔ s.frame.parenDepth = 0 := by
  rw [Text.matched_iff, h.parens]

theorem Reaches.plain_matched (h : Reaches config s tokens final) (htracked : s.Tracked)
    (hscanned : Token.Scanned tokens) (hplain : s.Plain Text.Matched) : final.Plain Text.Matched := by
  induction h with
  | refl s => exact hplain
  | @step s final t rest next hmove h ih =>
    refine ih (htracked.move hscanned.head hmove) (hscanned.tail.drop _) ?_
    refine hplain.growth_outside (fun _ hdepth => htracked.matched_iff.2 hdepth) (fun hmode hdepth name => ?_)
      hmove.growth
    exact Frame.matched_anchorText name (htracked.isOutside hmode hdepth)

end State

end Selector

/-! ### The end of the input -/

namespace SelectorList

variable {config : Config} {text : Text} {list : SelectorList} {final : State}

/-- Reading the whole text leads to the state `final`. -/
def EndsIn (config : Config) (text : Text) (final : State) : Prop :=
  State.start.run ⟨Text.trimSpace text, config⟩ 0 (Token.scan (Text.trimSpace text)) = .ok final

/-- The text ends inside of parentheses of plain text. -/
def EndsInParens (config : Config) (text : Text) : Prop :=
  ∃ final, EndsIn config text final ∧ 0 < final.frame.parenDepth

theorem EndsIn.unique {final' : State} (h : EndsIn config text final) (h' : EndsIn config text final') :
    final = final' :=
  Except.ok.inj (h.symm.trans h')

theorem EndsIn.tracked (h : EndsIn config text final) : final.Tracked :=
  (State.reaches_of_run h).tracked .start (Token.scanned_scan _)

theorem EndsIn.plain_matched (h : EndsIn config text final) : final.Plain Text.Matched :=
  (State.reaches_of_run h).plain_matched .start (Token.scanned_scan _) .start

theorem endsInParens_iff (h : EndsIn config text final) : EndsInParens config text ↔ 0 < final.frame.parenDepth := by
  constructor
  · rintro ⟨final', h', hdepth⟩
    rwa [h.unique h']
  · exact fun hdepth => ⟨final, h, hdepth⟩

/-- An open parenthesis is part of the plain text. -/
theorem EndsIn.buffer_ne_nil (h : EndsIn config text final) (hdepth : 0 < final.frame.parenDepth) :
    final.frame.buffer ≠ [] := by
  intro hnil
  have hparens := h.tracked.parens
  rw [hnil] at hparens
  exact absurd hparens (Nat.ne_of_lt hdepth)

theorem EndsIn.compile_eq (h : EndsIn config text final) (hdepth : 0 < final.frame.parenDepth) :
    compile config text = final.finish ⟨Text.trimSpace text, config⟩ := by
  refine compile_of_run (fun hempty => ?_) h
  rw [EndsIn, hempty] at h
  cases h
  cases hdepth

/-- The end of the input inside of parentheses is accepted unless something else is open, too. -/
theorem EndsIn.parse_eq (h : EndsIn config text final) (hdepth : 0 < final.frame.parenDepth) :
    if final.mode = .regular ∧ final.outer = [] then parse config text = .ok final.level.selectors
    else ∃ cause, parse config text = .error (.malformed cause) := by
  rw [parse_eq_compile, h.compile_eq hdepth]
  split
  · next hopen =>
    have hbuffer := h.buffer_ne_nil hdepth
    rcases final.frame.allParts_cases with ⟨hnil, -⟩ | ⟨-, hparts⟩
    · exact absurd hnil hbuffer
    · exact State.finish_eq_ok_iff.2 ⟨hopen.1, hopen.2, by simp [hparts, Part.isRegular], rfl⟩
  · next hopen =>
    rw [State.finish.eq_def]
    split
    · split
      · exact ⟨_, rfl⟩
      · exact ⟨_, rfl⟩
    · exact ⟨_, rfl⟩
    · exact ⟨_, rfl⟩
    · next hmode houter => exact absurd ⟨hmode, houter⟩ hopen

/-- The last plain part is the only one that can have a parenthesis without a partner. -/
theorem EndsIn.selectors (h : EndsIn config text final) :
    final.frame.parenDepth = 0 ∧ final.level.selectors.Everywhere (fun _ => Selector.Plain Text.Matched) [] ∨
      0 < final.frame.parenDepth ∧ ∃ earlier parts value,
        final.level.selectors = earlier ++ [parts ++ [.regular value]] ∧ ¬ Text.Matched value ∧
        ∀ selector ∈ earlier ++ [parts], Selector.Everywhere (fun _ => Selector.Plain Text.Matched) [] selector := by
  have hplain := h.plain_matched.level
  rcases Nat.eq_zero_or_pos final.frame.parenDepth with hdepth | hdepth
  · have hselectors := hplain.selectors (h.tracked.matched_iff.2 hdepth)
    refine .inl ⟨hdepth, everywhere_iff.2 ⟨final.level.selectors_ne_nil, fun selector hmem => ?_⟩⟩
    exact hselectors selector hmem []
  · refine .inr ⟨hdepth, final.level.finished, final.frame.parts, final.frame.buffer, ?_, ?_, ?_⟩
    · rcases final.frame.allParts_cases with ⟨hnil, -⟩ | ⟨-, hparts⟩
      · exact absurd hnil (h.buffer_ne_nil hdepth)
      · rw [← hparts]
        rfl
    · rw [h.tracked.matched_iff]
      omega
    · intro selector hmem
      rcases List.mem_append.1 hmem with hmem | hmem
      · exact hplain selector (.inl hmem) []
      · exact hplain selector (.inr (List.mem_singleton.1 hmem)) []

/-- All parentheses that open in plain parts are closed there, unless the text ends inside of some. Then the last part
of the last selector has one that is not, and the text is accepted unless an attribute or the argument of an extended
pseudo-class is open. -/
theorem parse_unclosed (config : Config) (text : Text) :
    (∀ list, parse config text = .ok list →
      ¬ EndsInParens config text ∧ list.Everywhere (fun _ => Selector.Plain Text.Matched) [] ∨
        EndsInParens config text ∧ ∃ earlier parts value, list = earlier ++ [parts ++ [.regular value]] ∧
          ¬ Text.Matched value ∧
          ∀ selector ∈ earlier ++ [parts], Selector.Everywhere (fun _ => Selector.Plain Text.Matched) [] selector) ∧
    ∀ final, EndsIn config text final → 0 < final.frame.parenDepth →
      if final.mode = .regular ∧ final.outer = [] then parse config text = .ok final.level.selectors
      else ∃ cause, parse config text = .error (.malformed cause) := by
  refine ⟨fun list h => ?_, fun final hend hdepth => hend.parse_eq hdepth⟩
  obtain ⟨-, final, hrun, -, -, -, rfl⟩ := compile_eq_ok_iff.1 (compile_of_parse h)
  have hend : EndsIn config text final := hrun
  rcases hend.selectors with ⟨hdepth, hall⟩ | ⟨hdepth, hlast⟩
  · exact .inl ⟨fun hopen => Nat.ne_of_gt ((endsInParens_iff hend).1 hopen) hdepth, hall⟩
  · exact .inr ⟨(endsInParens_iff hend).2 hdepth, hlast⟩

theorem parse_unclosed_last :
    (∃ list, parse .standard "a:is(b), div:nth-child(2".toList = .ok list ∧
      ∃ earlier parts value, list = earlier ++ [parts ++ [.regular value]] ∧ ¬ Text.Matched value) ∧
    ∃ cause, parse .standard "a:is(b:nth-child(2".toList = .error (.malformed cause) := by
  have hlist : parse .standard "a:is(b), div:nth-child(2".toList =
      .ok [[.regular ['a'], .relative "is".toList [[.regular ['b']]]], [.regular "div:nth-child(2".toList]] :=
    (parse_eq_compile _ _).trans (eq_ok_of_toOption (by decide +kernel))
  have hend : EndsIn .standard "a:is(b:nth-child(2".toList
      { level := { frame := { buffer := "b:nth-child(2".toList, parenDepth := 1 } }
        outer := [⟨"is".toList, { frame := { atInputStart := true, parts := [.regular ['a']] } }⟩] } :=
    eq_ok_of_toOption (by decide +kernel)
  refine ⟨⟨_, hlist, ?_⟩, (parse_unclosed .standard "a:is(b:nth-child(2".toList).2 _ hend Nat.one_pos⟩
  rcases (parse_unclosed .standard "a:is(b), div:nth-child(2".toList).1 _ hlist with ⟨-, hall⟩ | ⟨-, hlast⟩
  · have hmatched := ((everywhere_iff.1 hall).2 [.regular "div:nth-child(2".toList] (by simp)).1
    exact absurd (hmatched "div:nth-child(2".toList (by simp)) (by decide)
  · obtain ⟨earlier, parts, value, heq, hopen, -⟩ := hlast
    exact ⟨earlier, parts, value, heq, hopen⟩

/-- A list that is returned may have a parenthesis that is not closed. -/
theorem unclosed_accepted :
    parse .standard "div:nth-child(2".toList = .ok [[.regular "div:nth-child(2".toList]] ∧
      ¬ Text.Matched "div:nth-child(2".toList :=
  ⟨(parse_eq_compile _ _).trans (eq_ok_of_toOption (by decide +kernel)), by decide⟩

end SelectorList

end CosmeticFilter
