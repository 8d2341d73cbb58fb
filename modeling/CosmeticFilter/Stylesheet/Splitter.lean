import CosmeticFilter.Selector.Parser
import CosmeticFilter.Stylesheet.Removal

/-!
# Splitting a stylesheet

A stylesheet is read in turns: the text up to an opening brace as a selector, then the declarations
up to the closing brace. A brace whose text before it is no complete selector belongs to the
selector, so that braces in attribute values and regular expressions need no escape.

`Splitter.step` is one turn, and every turn leaves less text to read. `Splitter.trace` lists the
turns of a whole run.
-/

namespace CosmeticFilter

inductive Phase where
  /-- A selector, of which `buffer` is read already. -/
  | selector (buffer : Text)
  | style (pending : RawRule)
  deriving DecidableEq

structure Splitter where
  rest : Text
  phase : Phase := .selector []
  /-- The rules so far, each selector once, in the order of their first blocks. -/
  saved : List RawRule := []
  deriving DecidableEq

namespace Splitter

/-- A completed turn: what it leaves, and what it reports. -/
structure Turn where
  next : Splitter
  event : Option Event

/-! ## Turns -/

/-- Reads the last selector of a stylesheet, which no block follows: it must carry the marker of
removal. -/
def readLast (config : Config) (buffer : Text) (s : Splitter) : Except Fault Turn := do
  let candidate := Text.trimBlank (buffer ++ s.rest)
  let (selector, styles) ← Removal.split candidate
  if styles.isEmpty then .error (.sheet (.noStyle candidate candidate))
  else
    let ast ← SelectorList.parse config selector
    return {
      next := { rest := [], saved := RawRule.save ⟨Text.trimBlank selector, ast, styles⟩ s.saved }
      event := some (.selectorParsed selector ast.length) }

/-- Tries the text before an opening brace as a selector. -/
def readHead (config : Config) (buffer : Text) (cut : Text.Cut) (s : Splitter) :
    Except Fault Turn :=
  let buffer := buffer ++ cut.before
  let candidate := Text.trimBlank buffer
  if candidate.isEmpty then .error (.sheet (.noSelector cut.after))
  else do
    let (selector, styles) ← Removal.split candidate
    match SelectorList.parse config selector with
    | .ok ast =>
      return {
        next := { s with
          rest := cut.after
          phase := .style ⟨Text.trimBlank selector, ast, styles⟩ }
        event := some (.selectorParsed selector ast.length) }
    | .error fault =>
      if fault.isMalformed then
        return {
          next := { s with rest := cut.after, phase := .selector (buffer ++ ['\x7b']) }
          event := some (.candidateIncomplete candidate fault) }
      else .error fault

def readStyle (pending : RawRule) (s : Splitter) : Except Fault Turn :=
  (Block.read s.rest (!pending.styles.isEmpty)).map fun block =>
    let rule := { pending with styles := pending.styles ++ block.declarations }
    { next := { rest := block.rest.dropWhile Text.isBlank, saved := rule.save s.saved }
      event := none }

def step (config : Config) (s : Splitter) : Except Fault Turn :=
  match s.phase with
  | .selector buffer =>
    match Text.cutUnescaped? (· = '\x7b') s.rest with
    | none => s.readLast config buffer
    | some cut => s.readHead config buffer cut
  | .style pending => s.readStyle pending

/-! ## Progress -/

/-- The last selector takes all that is left. -/
theorem rest_readLast {config : Config} {buffer : Text} {s : Splitter} {turn : Turn}
    (h : s.readLast config buffer = .ok turn) : turn.next.rest = [] := by
  simp only [readLast, bind, Except.bind, pure, Except.pure] at h
  repeat' split at h
  all_goals cases h
  all_goals rfl

theorem rest_readHead {config : Config} {buffer : Text} {cut : Text.Cut} {s : Splitter}
    {turn : Turn} (h : s.readHead config buffer cut = .ok turn) : turn.next.rest = cut.after := by
  simp only [readHead, bind, Except.bind, pure, Except.pure] at h
  repeat' split at h
  all_goals cases h
  all_goals rfl

theorem rest_readStyle {pending : RawRule} {s : Splitter} {turn : Turn}
    (h : s.readStyle pending = .ok turn) : turn.next.rest.length < s.rest.length := by
  rw [readStyle] at h
  cases hb : Block.read s.rest (!pending.styles.isEmpty) with
  | error fault => rw [hb] at h; cases h
  | ok block =>
    rw [hb] at h
    cases h
    exact Nat.lt_of_le_of_lt (List.dropWhile_sublist _).length_le (Block.length_rest_lt hb)

/-- Every turn on a text that is not empty leaves less of it. -/
theorem length_rest_step_lt {config : Config} {s : Splitter} {turn : Turn} (hne : s.rest ≠ [])
    (h : s.step config = .ok turn) : turn.next.rest.length < s.rest.length := by
  rw [step] at h
  split at h
  · split at h
    · rw [rest_readLast h]
      exact List.length_pos_iff.2 hne
    · next hcut =>
      rw [rest_readHead h]
      exact Text.length_after_lt hcut
  · exact rest_readStyle h

/-! ## Runs -/

/-- The turns of a run, in order, and what it ends in: the state with no text left, or the fault of
the turn that failed. -/
def trace (config : Config) (s : Splitter) : List Turn × Except Fault Splitter :=
  if _hne : s.rest = [] then ([], .ok s)
  else
    match _h : s.step config with
    | .error fault => ([], .error fault)
    | .ok turn =>
      let (later, ending) := trace config turn.next
      (turn :: later, ending)
termination_by s.rest.length
decreasing_by exact length_rest_step_lt _hne _h

/-- The rules of a state with no text left; nothing may be open. -/
def finish (s : Splitter) : Except Fault (List RawRule) :=
  match s.phase with
  | .style pending => .error (.sheet (.openRule pending.selector))
  | .selector buffer =>
    if Block.hasContent buffer then .error (.sheet (.noStyle (Text.trimBlank buffer) buffer))
    else .ok s.saved

def rules (config : Config) (text : Text) : Except Fault (List RawRule) :=
  (trace config { rest := text }).2.bind finish

end Splitter

end CosmeticFilter
