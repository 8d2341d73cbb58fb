import CosmeticFilter.Proofs.Moves

/-!
# Places in a plain text

Whether a place of a plain part lies inside an attribute or inside parentheses is decided by the
characters of that part before the place: `Context.after` scans them with the compiler's rules for
brackets (`Attribute.closes`) and parentheses.

`State.Tracked` says that the bookkeeping of the compiler is this scan: in every reachable state the
open attribute and the number of open parentheses are those after the text collected so far
(`Tracked.move`). So what the compiler does inside brackets or parentheses it does there in the
finished part too.
-/

namespace CosmeticFilter.Selector

/-- What the characters of a plain text before a place say about the place. -/
structure Context where
  /-- The text after the opening bracket, if an attribute is open. -/
  bracket : Option Text := none
  /-- How many parentheses are open outside of attributes. -/
  parenDepth : Nat := 0
  /-- The character directly before the place. -/
  last : Option Char := none
  deriving DecidableEq

namespace Context

/-- The place after one more character. Inside an attribute only a bracket counts. -/
def step (ctx : Context) (c : Char) : Context :=
  match ctx.bracket with
  | some body =>
    { bracket :=
        if c = Mark.squareRight ∧ (Attribute.closes body).toOption = some true then none
        else some (body ++ [c])
      parenDepth := ctx.parenDepth
      last := some c }
  | none =>
    { bracket := if c = Mark.squareLeft ∧ ctx.last ≠ some Mark.backslash then some [] else none
      parenDepth :=
        if c = Mark.parenLeft then ctx.parenDepth + 1
        else if c = Mark.parenRight then ctx.parenDepth - 1
        else ctx.parenDepth
      last := some c }

def after (t : Text) : Context := t.foldl step {}

/-- Whether the place lies outside of all attributes and parentheses. -/
def IsOutside (ctx : Context) : Prop := ctx.bracket = none ∧ ctx.parenDepth = 0

instance (ctx : Context) : Decidable ctx.IsOutside := inferInstanceAs (Decidable (_ ∧ _))

theorem after_append (a b : Text) : after (a ++ b) = b.foldl step (after a) := by
  simp [after]

theorem after_concat (a : Text) (c : Char) : after (a ++ [c]) = (after a).step c := by
  simp [after]

@[simp] theorem last_step (ctx : Context) (c : Char) : (ctx.step c).last = some c := by
  rw [step]; split <;> rfl

theorem last_after (t : Text) : (after t).last = t.getLast? := by
  induction t using List.reverseRecOn with
  | nil => rfl
  | append_singleton t c ih => simp [after_concat]

theorem step_squareLeft {ctx : Context} (h : ctx.bracket = none) (hlast : ctx.last ≠ some Mark.backslash) :
    (ctx.step Mark.squareLeft).bracket = some [] ∧
      (ctx.step Mark.squareLeft).parenDepth = ctx.parenDepth := by
  have hleft : Mark.squareLeft ≠ Mark.parenLeft := by decide
  have hright : Mark.squareLeft ≠ Mark.parenRight := by decide
  simp [step, h, hlast, hleft, hright]

theorem step_parenLeft {ctx : Context} (h : ctx.bracket = none) :
    (ctx.step Mark.parenLeft).bracket = none ∧
      (ctx.step Mark.parenLeft).parenDepth = ctx.parenDepth + 1 := by
  have hne : Mark.parenLeft ≠ Mark.squareLeft := by decide
  simp [step, h, hne]

theorem step_parenRight {ctx : Context} (h : ctx.bracket = none) :
    (ctx.step Mark.parenRight).bracket = none ∧
      (ctx.step Mark.parenRight).parenDepth = ctx.parenDepth - 1 := by
  have hne : Mark.parenRight ≠ Mark.squareLeft := by decide
  have hleft : Mark.parenRight ≠ Mark.parenLeft := by decide
  simp [step, h, hne, hleft]

/-- Inside an attribute, text without a closing bracket stays inside. -/
theorem foldl_step_attribute {ctx : Context} {body w : Text} (h : ctx.bracket = some body)
    (hw : Mark.squareRight ∉ w) :
    (w.foldl step ctx).bracket = some (body ++ w) ∧ (w.foldl step ctx).parenDepth = ctx.parenDepth := by
  induction w generalizing ctx body with
  | nil => simpa using h
  | cons c w ih =>
    have hc : c ≠ Mark.squareRight := fun hc => hw (by simp [hc])
    have hread : (ctx.step c).bracket = some (body ++ [c]) := by simp [step, h, hc]
    have hdepth : (ctx.step c).parenDepth = ctx.parenDepth := by simp [step, h]
    have := ih hread fun hmem => hw (by simp [hmem])
    simpa [hdepth] using this

/-- Outside of attributes, text without brackets and parentheses changes nothing. -/
theorem foldl_step_plain {ctx : Context} {w : Text} (h : ctx.bracket = none)
    (hw : Mark.squareLeft ∉ w ∧ Mark.parenLeft ∉ w ∧ Mark.parenRight ∉ w) :
    (w.foldl step ctx).bracket = none ∧ (w.foldl step ctx).parenDepth = ctx.parenDepth := by
  induction w generalizing ctx with
  | nil => simpa using h
  | cons c w ih =>
    obtain ⟨hsquare, hleft, hright⟩ := hw
    simp only [List.mem_cons, not_or] at hsquare hleft hright
    have hread : (ctx.step c).bracket = none := by simp [step, h, Ne.symm hsquare.1]
    have hdepth : (ctx.step c).parenDepth = ctx.parenDepth := by
      simp [step, h, Ne.symm hleft.1, Ne.symm hright.1]
    have := ih hread ⟨hsquare.2, hleft.2, hright.2⟩
    simpa [hdepth] using this

end Context

open Context

/-! ### The compiler tracks the places -/

def Mode.bracket? : Mode → Option Text
  | .attribute body => some body
  | _ => none

namespace State

/-- The open attribute and the open parentheses are those after the text collected so far, and where
an argument is open, no text is. -/
structure Tracked (s : State) : Prop where
  bracket : (after s.frame.buffer).bracket = s.mode.bracket?
  parens : (after s.frame.buffer).parenDepth = s.frame.parenDepth
  argument : ∀ a, s.mode = .argument a → s.frame.buffer = []
  outer : ∀ e ∈ s.outer, e.level.frame.buffer = [] ∧ e.level.frame.parenDepth = 0

namespace Tracked

variable {config : Config} {s : State} {t : Token} {rest : List Token} {next : Step}

theorem start : State.start.Tracked := ⟨rfl, rfl, nofun, by simp [State.start]⟩

/-- In plain text with no parenthesis open, the place is outside. -/
theorem isOutside (h : s.Tracked) (hmode : s.mode = .regular) (hdepth : s.frame.parenDepth = 0) :
    (after s.frame.buffer).IsOutside :=
  ⟨by rw [h.bracket, hmode]; rfl, by rw [h.parens, hdepth]⟩

/-- Where an attribute is open, its bracket is part of the text. -/
theorem buffer_ne_nil (h : s.Tracked) {body : Text} (hmode : s.mode = .attribute body) : s.frame.buffer ≠ [] := by
  intro hnil
  have hbracket := h.bracket
  rw [hnil, hmode] at hbracket
  cases hbracket

theorem write (h : s.Tracked) (hmode : s.mode = .regular) {w : Text}
    (hw : Mark.squareLeft ∉ w ∧ Mark.parenLeft ∉ w ∧ Mark.parenRight ∉ w) :
    (after (s.frame.buffer ++ w)).bracket = none ∧
      (after (s.frame.buffer ++ w)).parenDepth = s.frame.parenDepth := by
  have hbracket : (after s.frame.buffer).bracket = none := by rw [h.bracket, hmode]; rfl
  rw [after_append, ← h.parens]
  exact foldl_step_plain hbracket hw

theorem move_inAttribute (h : s.Tracked) (ht : t.Proper) {body : Text} {state : State}
    (hmode : s.mode = .attribute body) (hread : s.readAttribute body t = .ok state) : state.Tracked := by
  have hbracket : (after s.frame.buffer).bracket = some body := by rw [h.bracket, hmode]; rfl
  rcases readAttribute_cases hread with ⟨hopen, rfl⟩ | ⟨hmark, hclosed, rfl⟩
  · -- the bracket that does not close the attribute is text of it like any other character
    have hafter : (after (s.frame.buffer ++ t.text)).bracket = some (body ++ t.text) ∧
        (after (s.frame.buffer ++ t.text)).parenDepth = s.frame.parenDepth := by
      rw [after_append, ← h.parens]
      by_cases hmark : t.text = [Mark.squareRight]
      · simp [hmark, Context.step, hbracket, hopen hmark, Except.toOption]
      · exact foldl_step_attribute hbracket fun hmem => hmark (ht.text_of_mem hmem rfl)
    exact ⟨hafter.1, hafter.2, nofun, h.outer⟩
  · refine ⟨?_, ?_, nofun, h.outer⟩
    · show (after (s.frame.buffer ++ t.text)).bracket = none
      simp [hmark, after_concat, Context.step, hbracket, hclosed, Except.toOption]
    · show (after (s.frame.buffer ++ t.text)).parenDepth = s.frame.parenDepth
      simp [hmark, after_concat, Context.step, hbracket, h.parens]

theorem move_inArgument (h : s.Tracked) {input : Input} {a : Argument} {state : State}
    (hmode : s.mode = .argument a) (hread : s.readArgument input a t = .ok state) : state.Tracked := by
  have hbuffer := h.argument a hmode
  have hbracket : (after s.frame.buffer).bracket = none := by rw [hbuffer]; rfl
  rcases readArgument_cases hread with ⟨a', -, -, rfl⟩ | ⟨-, -, rfl⟩
  · exact ⟨hbracket, h.parens, fun _ _ => hbuffer, h.outer⟩
  · exact ⟨hbracket, h.parens, nofun, h.outer⟩

theorem readPlain (h : s.Tracked) (ht : t.Proper) (hmode : s.mode = .regular) :
    (s.readPlain t).Tracked := by
  have hbracket : (after s.frame.buffer).bracket = none := by rw [h.bracket, hmode]; rfl
  rcases readPlain_cases s t with ⟨hmark, hlast, heq⟩ | ⟨hmark, heq⟩ | ⟨hmark, heq⟩ |
    ⟨hsquare, hleft, hright, heq⟩
  · have hstep := step_squareLeft hbracket (by rwa [last_after])
    rw [heq]
    refine ⟨?_, ?_, nofun, h.outer⟩
    · show (after (s.frame.buffer ++ t.text)).bracket = some []
      rw [hmark, after_concat, hstep.1]
    · show (after (s.frame.buffer ++ t.text)).parenDepth = s.frame.parenDepth
      rw [hmark, after_concat, hstep.2, h.parens]
  · have hstep := step_parenLeft hbracket
    rw [heq]
    refine ⟨?_, ?_, by simp [hmode], h.outer⟩
    · simp [hmark, after_concat, hstep.1, hmode, Mode.bracket?]
    · simp [hmark, after_concat, hstep.2, h.parens]
  · have hstep := step_parenRight hbracket
    rw [heq]
    refine ⟨?_, ?_, by simp [hmode], h.outer⟩
    · simp [hmark, after_concat, hstep.1, hmode, Mode.bracket?]
    · simp [hmark, after_concat, hstep.2, h.parens]
  · rw [heq]
    have hafter : (after (s.frame.buffer ++ t.text)).bracket = none ∧
        (after (s.frame.buffer ++ t.text)).parenDepth = s.frame.parenDepth := by
      cases hword : t.isWord with
      | true =>
        have hno := ht.not_mark hword
        exact h.write hmode ⟨fun hmem => absurd (hno _ hmem) (by decide),
          fun hmem => absurd (hno _ hmem) (by decide), fun hmem => absurd (hno _ hmem) (by decide)⟩
      | false =>
        obtain ⟨c, -, hc⟩ := ht.mark hword
        rw [hc] at hsquare hleft hright ⊢
        rw [after_concat, ← h.parens]
        simp only [List.singleton_inj, ne_eq] at hsquare hleft hright
        simp only [Context.step, hbracket, last_after, hleft, hright, if_false, and_true]
        by_cases hsquareLeft : c = Mark.squareLeft
        · simp [hsquare hsquareLeft]
        · simp [hsquareLeft]
    exact ⟨by simpa [hmode, Mode.bracket?] using hafter.1, hafter.2, by simp [hmode], h.outer⟩

theorem move (h : s.Tracked) (ht : t.Proper) (hmove : Move config s t rest next) : next.state.Tracked := by
  cases hmove with
  | inAttribute mode read => exact h.move_inAttribute ht mode read
  | inArgument mode read => exact h.move_inArgument mode (read ⟨[], config⟩)
  | comma mode mark depth regular =>
    exact ⟨by rw [mode_nextSelector, mode]; rfl, rfl, by simp [mode], h.outer⟩
  | @close enclosing outer mode mark depth removed stack regular =>
    obtain ⟨hbuffer, hdepth⟩ := h.outer enclosing (by simp [stack])
    have houter : ∀ e ∈ outer, e.level.frame.buffer = [] ∧ e.level.frame.parenDepth = 0 :=
      fun e he => h.outer e (by simp [stack, he])
    refine ⟨?_, ?_, by simp [mode], houter⟩
    · rw [frame_resume, Frame.buffer_push, hbuffer, mode_resume, mode]
      rfl
    · rw [frame_resume, Frame.buffer_push, hbuffer, Frame.parenDepth_push, hdepth]
      rfl
  | colon mode mark removed plain =>
    have hafter := h.write mode (w := s.colonText) (by rw [colonText]; split <;> decide)
    refine ⟨?_, ?_, by simp [mode], h.outer⟩
    · rw [frame_copyColon, mode_copyColon, mode]
      exact hafter.1
    · rw [frame_copyColon]
      exact hafter.2
  | openRelative mode mark removed opens limit =>
    refine ⟨by rw [mode_suspend, mode]; rfl, rfl, by simp [mode], ?_⟩
    intro e he
    rcases List.mem_cons.1 he with rfl | he
    · exact ⟨by simp, by simp [opens.depth]⟩
    · exact h.outer e he
  | openAbsolute mode mark removed opens remove =>
    refine ⟨?_, ?_, by simp, h.outer⟩
    · rw [frame_openArgument, Frame.buffer_anchor]
      rfl
    · rw [frame_openArgument, Frame.buffer_anchor, Frame.parenDepth_anchor, opens.depth]
      rfl
  | keepSpace mode space kept =>
    obtain ⟨c, hc, hspace⟩ := Token.isOf_iff.1 space
    have hafter := h.write mode (w := t.text) (by
      rw [hc]
      refine ⟨?_, ?_, ?_⟩ <;> (rw [List.mem_singleton]; rintro rfl; cases hspace))
    exact ⟨by simpa [mode, Mode.bracket?] using hafter.1, hafter.2, by simp [mode], h.outer⟩
  | dropSpace mode space depth dropped => exact h
  | plain mode removed ordinary => exact h.readPlain ht mode

end Tracked

end State

end CosmeticFilter.Selector

namespace CosmeticFilter.SelectorList

open Selector

/-- The induction over a run, with the places tracked and with what the scanner says about the tokens that
are ahead. -/
theorem compile_induction_tracked {config : Config} {text : Text} {list : SelectorList}
    {P : State → List Token → Prop} (h : compile config text = .ok list)
    (hstart : P State.start (Token.scan (Text.trimSpace text)))
    (hmove : ∀ s t rest next, s.Tracked → Token.Scanned (t :: rest) → Token.Trimmed (t :: rest) →
      P s (t :: rest) → State.Move config s t rest next → P next.state (rest.drop next.skip)) :
    ∃ final : State, P final [] ∧ final.mode = .regular ∧ final.outer = [] ∧
      final.frame.allParts.any Part.isRegular = true ∧
      list = final.level.selectors := by
  have hrun := compile_induction
    (P := fun s rest => (s.Tracked ∧ Token.Scanned rest ∧ Token.Trimmed rest) ∧ P s rest) h
    ⟨⟨.start, Token.scanned_scan _, Token.trimmed_scan _⟩, hstart⟩ (by
      intro s t rest next hP hnext
      obtain ⟨⟨htracked, hscanned, htrimmed⟩, hP⟩ := hP
      refine ⟨⟨htracked.move hscanned.head hnext, hscanned.tail.drop _, (htrimmed.drop 1).drop _⟩, ?_⟩
      exact hmove s t rest next htracked hscanned htrimmed hP hnext)
  obtain ⟨final, ⟨-, hP⟩, hfinal⟩ := hrun
  exact ⟨final, hP, hfinal⟩

end CosmeticFilter.SelectorList
