import CosmeticFilter.Proofs.Declarations
import CosmeticFilter.Stylesheet.Splitter
import Mathlib.Tactic.MkIffOfInductiveProp

/-!
# What a turn of the splitter can do

`Splitter.Turns config s next` lists the ways in which a turn leads from the state `s` to `next`, with
everything that has been checked on the way: the text before a brace is accepted as a selector
(`Accepts`) or refused as malformed (`Refuses`). `exists_step_eq_ok_iff` says that these are the successful
turns, so no later proof opens `step`.

`Splitter.outcome` is what a run from a state ends in. `outcome_induction` goes through a run from its end:
what holds where no text is left, and is carried back over every turn, holds where the run starts.
-/

namespace CosmeticFilter.Splitter

open Text (Escapes Free Blank)

/-! ### Heads -/

/-- The text before a brace, or at the end of a stylesheet, is a selector. The `rule` is what it stands for:
its styles are those of the marker of removal. -/
@[mk_iff]
structure Accepts (config : Config) (head : Text) (rule : RawRule) : Prop where
  content : ¬ Blank head
  compiled : ∃ selector, Removal.split (Text.trimBlank head) = .ok (selector, rule.styles) ∧
    SelectorList.parse config selector = .ok rule.ast ∧ rule.selector = Text.trimBlank selector

/-- The text before a brace is malformed as a selector, so that the brace belongs to the selector. -/
@[mk_iff]
structure Refuses (config : Config) (head : Text) : Prop where
  content : ¬ Blank head
  malformed : ∃ selector styles cause, Removal.split (Text.trimBlank head) = .ok (selector, styles) ∧
    SelectorList.parse config selector = .error (.malformed cause)

variable {config : Config} {head lead : Text} {rule : RawRule}

theorem accepts_append (hlead : Blank lead) : Accepts config (lead ++ head) rule ↔ Accepts config head rule := by
  rw [accepts_iff, accepts_iff, Text.blank_lead hlead, Text.trimBlank_lead hlead]

theorem refuses_append (hlead : Blank lead) : Refuses config (lead ++ head) ↔ Refuses config head := by
  rw [refuses_iff, refuses_iff, Text.blank_lead hlead, Text.trimBlank_lead hlead]

/-- A head has the styles of the marker of removal exactly if it ends in the marker. -/
theorem accepts_marked_iff : Accepts config head rule ∧ rule.styles ≠ [] ↔
    ∃ selector, Removal.Marked (Text.trimBlank head) selector ∧
      SelectorList.parse config selector = .ok rule.ast ∧ rule.selector = Text.trimBlank selector ∧
      rule.styles = [Declaration.removal] := by
  constructor
  · rintro ⟨⟨-, selector, hsplit, hparse, hselector⟩, hstyles⟩
    rcases Removal.split_eq_ok_iff.1 hsplit with ⟨-, hnil, -⟩ | ⟨hmarked, hremoval⟩
    · exact absurd hnil hstyles
    · exact ⟨selector, hmarked, hparse, hselector, hremoval⟩
  · rintro ⟨selector, hmarked, hparse, hselector, hremoval⟩
    refine ⟨⟨fun hblank => ?_, selector, Removal.split_eq_ok_iff.2 (.inr ⟨hmarked, hremoval⟩), hparse,
      hselector⟩, by simp [hremoval]⟩
    have hends := hmarked.ends
    rw [Text.trimBlank_eq_nil_iff.2 hblank] at hends
    simp at hends

/-! ### Turns -/

/-- What a turn can do. -/
inductive Turns (config : Config) (s : Splitter) : Splitter → Prop
  /-- The last selector, which no block follows. -/
  | last {buffer : Text} {rule : RawRule} (phase : s.phase = .selector buffer)
      (free : Free (· = '\x7b') s.rest) (accepts : Accepts config (buffer ++ s.rest) rule)
      (marked : rule.styles ≠ []) : Turns config s { rest := [], saved := rule.save s.saved }
  /-- A brace that belongs to a selector. -/
  | refuse {buffer before after : Text} (phase : s.phase = .selector buffer)
      (rest : s.rest = before ++ '\x7b' :: after) (free : Free (· = '\x7b') before)
      (unescaped : ¬ Escapes before) (refuses : Refuses config (buffer ++ before)) :
      Turns config s { s with rest := after, phase := .selector (buffer ++ before ++ ['\x7b']) }
  /-- A brace that opens a block. -/
  | accept {buffer before after : Text} {rule : RawRule} (phase : s.phase = .selector buffer)
      (rest : s.rest = before ++ '\x7b' :: after) (free : Free (· = '\x7b') before)
      (unescaped : ¬ Escapes before) (accepts : Accepts config (buffer ++ before) rule) :
      Turns config s { s with rest := after, phase := .style rule }
  /-- A block, with the blank characters after it. -/
  | block {pending : RawRule} {body after : Text} {ds : List Declaration} (phase : s.phase = .style pending)
      (rest : s.rest = body ++ '\x7d' :: after) (free : Free (· = '\x7d') body) (unescaped : ¬ Escapes body)
      (declares : Block.Body body ds) (styled : pending.styles ++ ds ≠ []) :
      Turns config s
        { rest := after.dropWhile Text.isBlank
          saved := RawRule.save { pending with styles := pending.styles ++ ds } s.saved }

variable {s next : Splitter} {buffer : Text}

theorem turns_of_readLast {turn : Turn} (hphase : s.phase = .selector buffer) (hfree : Free (· = '\x7b') s.rest)
    (h : s.readLast config buffer = .ok turn) : Turns config s turn.next := by
  obtain ⟨⟨selector, styles⟩, hsplit, h⟩ := bind_eq_ok_iff.1 h
  dsimp only at h
  split at h
  · cases h
  · next hstyles =>
    obtain ⟨ast, hparse, h⟩ := bind_eq_ok_iff.1 h
    cases h
    have hne : styles ≠ [] := by simpa using hstyles
    have haccepts : Accepts config (buffer ++ s.rest) ⟨Text.trimBlank selector, ast, styles⟩ := by
      refine ⟨fun hblank => hne ?_, selector, hsplit, hparse, rfl⟩
      -- a blank text has no marker
      rw [Text.trimBlank_eq_nil_iff.2 hblank] at hsplit
      rcases Removal.split_eq_ok_iff.1 hsplit with ⟨-, hnil, -⟩ | ⟨hmarked, -⟩
      · exact hnil
      · exact absurd hmarked.ends (by simp)
    exact .last hphase hfree haccepts hne

theorem turns_of_readHead {turn : Turn} {cut : Text.Cut} (hphase : s.phase = .selector buffer)
    (hcut : Text.cutUnescaped? (· = '\x7b') s.rest = some cut) (h : s.readHead config buffer cut = .ok turn) :
    Turns config s turn.next := by
  obtain ⟨hrest, hmark, hescapes, hfree⟩ := Text.cutUnescaped?_eq_some_iff.1 hcut
  have hmark : cut.mark = '\x7b' := by simpa using hmark
  rw [hmark] at hrest
  rw [readHead] at h
  dsimp only at h
  split at h
  · cases h
  · next hcontent =>
    have hcontent : ¬ Blank (buffer ++ cut.before) := by
      rw [← Text.trimBlank_eq_nil_iff]
      simpa using hcontent
    obtain ⟨⟨selector, styles⟩, hsplit, h⟩ := bind_eq_ok_iff.1 h
    dsimp only at h
    split at h
    · next ast hparse =>
      cases h
      have haccepts : Accepts config (buffer ++ cut.before) ⟨Text.trimBlank selector, ast, styles⟩ :=
        ⟨hcontent, selector, hsplit, hparse, rfl⟩
      exact .accept hphase hrest hfree hescapes haccepts
    · next fault hparse =>
      split at h
      · next hmalformed =>
        cases h
        cases fault with
        | malformed cause => exact .refuse hphase hrest hfree hescapes ⟨hcontent, selector, styles, cause, hsplit, hparse⟩
        | violation cause => cases hmalformed
        | misshapen cause => cases hmalformed
        | sheet cause => cases hmalformed
      · cases h

theorem turns_of_readStyle {turn : Turn} {pending : RawRule} (hphase : s.phase = .style pending)
    (h : s.readStyle pending = .ok turn) : Turns config s turn.next := by
  obtain ⟨block, hblock, rfl⟩ := map_eq_ok_iff.1 h
  obtain ⟨body, hrest, hfree, hescapes, hbody, hstyled⟩ := Block.read_eq_ok_iff.1 hblock
  refine .block hphase hrest hfree hescapes hbody fun hnil => ?_
  obtain ⟨hpending, hnone⟩ := List.append_eq_nil_iff.1 hnil
  simp [hpending, hnone] at hstyled

theorem turns_of_step {turn : Turn} (h : s.step config = .ok turn) : Turns config s turn.next := by
  rw [step] at h
  split at h
  · next buffer hphase =>
    split at h
    · next hcut => exact turns_of_readLast hphase (Text.cutUnescaped?_eq_none_iff.1 hcut) h
    · next cut hcut => exact turns_of_readHead hphase hcut h
  · next pending hphase => exact turns_of_readStyle hphase h

theorem step_of_cut {before after : Text} (hphase : s.phase = .selector buffer)
    (hrest : s.rest = before ++ '\x7b' :: after) (hfree : Free (· = '\x7b') before) (hescapes : ¬ Escapes before) :
    s.step config = s.readHead config buffer ⟨before, '\x7b', after⟩ := by
  have hcut : Text.cutUnescaped? (· = '\x7b') s.rest = some ⟨before, '\x7b', after⟩ :=
    Text.cutUnescaped?_eq_some_iff.2 ⟨hrest, rfl, hescapes, hfree⟩
  rw [step, hphase]
  simp only [hcut]

theorem Turns.step_eq (h : Turns config s next) : ∃ event, s.step config = .ok ⟨next, event⟩ := by
  cases h with
  | @last buffer rule phase free accepts marked =>
    obtain ⟨-, selector, hsplit, hparse, hselector⟩ := accepts
    have hcut : Text.cutUnescaped? (· = '\x7b') s.rest = none := Text.cutUnescaped?_eq_none_iff.2 free
    rw [step, phase]
    simp only [hcut, readLast, hsplit, hparse, bind, Except.bind, pure, Except.pure]
    exact ⟨some (.selectorParsed selector rule.ast.length), by simp [marked, ← hselector]⟩
  | @refuse buffer before after phase rest free unescaped refuses =>
    obtain ⟨hcontent, selector, styles, cause, hsplit, hparse⟩ := refuses
    rw [step_of_cut phase rest free unescaped, readHead]
    rw [← Text.trimBlank_eq_nil_iff] at hcontent
    simp [hcontent, hsplit, hparse, bind, Except.bind, pure, Except.pure, Fault.isMalformed]
  | @accept buffer before after rule phase rest free unescaped accepts =>
    obtain ⟨hcontent, selector, hsplit, hparse, hselector⟩ := accepts
    rw [step_of_cut phase rest free unescaped, readHead]
    rw [← Text.trimBlank_eq_nil_iff] at hcontent
    simp [hcontent, hsplit, hparse, bind, Except.bind, pure, Except.pure, ← hselector]
  | @block pending body after ds phase rest free unescaped declares styled =>
    have hread : Block.read s.rest (!pending.styles.isEmpty) = .ok ⟨ds, after⟩ := by
      refine Block.read_eq_ok_iff.2 ⟨body, rest, free, unescaped, declares, fun hnil => ?_⟩
      simpa [show ds = [] from hnil] using styled
    rw [step, phase]
    exact ⟨none, by simp [readStyle, hread, Except.map]⟩

/-- The successful turns are those of `Turns`. -/
theorem exists_step_eq_ok_iff : (∃ event, s.step config = .ok ⟨next, event⟩) ↔ Turns config s next :=
  ⟨fun ⟨_, h⟩ => turns_of_step h, Turns.step_eq⟩

/-! ### Runs -/

def outcome (config : Config) (s : Splitter) : Except Fault (List RawRule) := (trace config s).2.bind finish

theorem outcome_of_nil (h : s.rest = []) : outcome config s = s.finish := by
  rw [outcome, trace, dif_pos h]
  rfl

theorem outcome_of_step {turn : Turn} (hne : s.rest ≠ []) (h : s.step config = .ok turn) :
    outcome config s = outcome config turn.next := by
  rw [outcome, trace, dif_neg hne]
  split
  · next hfault => simp [h] at hfault
  · next turn' hturn =>
    cases h.symm.trans hturn
    rfl

theorem Turns.outcome_eq (h : Turns config s next) (hne : s.rest ≠ []) : outcome config s = outcome config next := by
  obtain ⟨event, hstep⟩ := h.step_eq
  exact outcome_of_step hne hstep

theorem exists_turns_of_outcome {table : List RawRule} (hne : s.rest ≠ []) (h : outcome config s = .ok table) :
    ∃ next, Turns config s next ∧ next.rest.length < s.rest.length ∧ outcome config next = .ok table := by
  cases hstep : s.step config with
  | error fault =>
    rw [outcome, trace, dif_neg hne] at h
    split at h
    · cases h
    · next hturn => simp [hstep] at hturn
  | ok turn =>
    exact ⟨turn.next, turns_of_step hstep, length_rest_step_lt hne hstep, by rwa [← outcome_of_step hne hstep]⟩

/-- What holds at the end of a run, and before a turn where it holds after it, holds at its start. -/
theorem outcome_induction {table : List RawRule} {P : Splitter → Prop}
    (hend : ∀ s, s.rest = [] → s.finish = .ok table → P s)
    (hturn : ∀ s next, s.rest ≠ [] → Turns config s next → P next → P s)
    (h : outcome config s = .ok table) : P s := by
  induction hn : s.rest.length using Nat.strong_induction_on generalizing s with
  | _ n ih =>
  by_cases hnil : s.rest = []
  · rw [outcome_of_nil hnil] at h
    exact hend s hnil h
  · obtain ⟨next, hnext, hlength, h⟩ := exists_turns_of_outcome hnil h
    exact hturn s next hnil hnext (ih _ (hn ▸ hlength) h rfl)

end CosmeticFilter.Splitter
