import CosmeticFilter.Proofs.Concatenation

/-!
# The registers of the splitter

The type of a splitter says what goes with what: a rule waits for its block exactly where declarations are read
next. `Splitter.Registers` keeps the same pieces in registers of their own, with a table of rules under keys, and
nothing in their types relates them. Where a block begins, or where the text ends inside one, the pending rule
may be missing; then there is no result at all, not even a fault.

`Splitter.step_registers` says that the registers of a splitter do what the splitter does, and `Settled.turn` what
every turn of a splitter keeps. Together they give `Splitter.registers_sound`: in every state that is reached the
registers fit each other, every turn makes progress, and a run always has a result, the one of the splitter.
-/

namespace CosmeticFilter

open Text (Escapes Free Blank)

/-! ### Tables with keys -/

namespace RawRule

/-- Adds a rule to a table with keys: the rule that is stored under its selector takes the declarations over, else
the rule is added at the end. -/
def store (raw : RawRule) : List (Text × RawRule) → List (Text × RawRule)
  | [] => [(raw.selector, raw)]
  | (key, stored) :: rest =>
    if key = raw.selector then (key, { stored with styles := stored.styles ++ raw.styles }) :: rest
    else (key, stored) :: store raw rest

def keyed (table : List RawRule) : List (Text × RawRule) := table.map fun raw => (raw.selector, raw)

theorem store_keyed (raw : RawRule) (table : List RawRule) : raw.store (keyed table) = keyed (raw.save table) := by
  induction table with
  | nil => rfl
  | cons stored table ih =>
    show raw.store ((stored.selector, stored) :: keyed table) = _
    rw [store, save]
    split
    · rfl
    · rw [ih]
      rfl

/-- A rule is added under a new key at the end, or it extends the declarations under its key. -/
theorem save_cases (raw : RawRule) (table : List RawRule) :
    raw.selector ∉ keys table ∧ raw.save table = table ++ [raw] ∨
      ∃ before stored after, table = before ++ stored :: after ∧ stored.selector = raw.selector ∧
        raw.save table = before ++ { stored with styles := stored.styles ++ raw.styles } :: after := by
  induction table with
  | nil => exact .inl ⟨List.not_mem_nil, rfl⟩
  | cons stored table ih =>
    rw [save]
    split
    · next hsame => exact .inr ⟨[], stored, table, rfl, hsame, rfl⟩
    · next hother =>
      rcases ih with ⟨hnew, heq⟩ | ⟨before, old, after, htable, hold, heq⟩
      · exact .inl ⟨by simp [Ne.symm hother, hnew], by rw [heq]; rfl⟩
      · exact .inr ⟨stored :: before, old, after, by rw [htable]; rfl, hold, by rw [heq]; rfl⟩

end RawRule

namespace Splitter

variable {config : Config} {s next : Splitter} {text : Text}

/-! ### Registers -/

structure Registers where
  rest : Text
  /-- Whether a selector is read next, and not declarations. -/
  inSelector : Bool := true
  buffer : Text := []
  pending : Option RawRule := none
  /-- The rules so far under their keys, in the order in which the keys were added. -/
  results : List (Text × RawRule) := []
  deriving DecidableEq

namespace Registers

def readSelector (config : Config) (r : Registers) : Except Fault Registers :=
  match Text.cutUnescaped? (· = '\x7b') r.rest with
  | none => do
    let candidate := Text.trimBlank (r.buffer ++ r.rest)
    let (selector, styles) ← Removal.split candidate
    if styles.isEmpty then .error (.sheet (.noStyle candidate candidate))
    else
      let ast ← SelectorList.parse config selector
      let rule : RawRule := ⟨Text.trimBlank selector, ast, styles⟩
      return { r with rest := [], buffer := [], results := rule.store r.results }
  | some cut =>
    let buffer := r.buffer ++ cut.before
    let candidate := Text.trimBlank buffer
    if candidate.isEmpty then .error (.sheet (.noSelector cut.after))
    else do
      let (selector, styles) ← Removal.split candidate
      match SelectorList.parse config selector with
      | .ok ast =>
        return { r with
          rest := cut.after
          inSelector := false
          buffer := []
          pending := some ⟨Text.trimBlank selector, ast, styles⟩ }
      | .error (.malformed _) => return { r with rest := cut.after, buffer := buffer ++ ['\x7b'] }
      | .error fault => .error fault

def readBlock (pending : RawRule) (r : Registers) : Except Fault Registers := do
  let block ← Block.read r.rest (!pending.styles.isEmpty)
  let rule := { pending with styles := pending.styles ++ block.declarations }
  return { r with
    rest := block.rest.dropWhile Text.isBlank
    inSelector := true
    pending := none
    results := rule.store r.results }

/-- One turn. A block without a rule has no result. -/
def step (config : Config) (r : Registers) : Option (Except Fault Registers) :=
  if r.inSelector then some (r.readSelector config)
  else r.pending.map fun pending => r.readBlock pending

/-- The rules where no text is left. A fault names the pending rule, and there is no result without it. -/
def finish (r : Registers) : Option (Except Fault (List RawRule)) :=
  if !r.inSelector then r.pending.map fun pending => .error (.sheet (.openRule pending.selector))
  else if Block.hasContent r.buffer then
    some (.error (.sheet (.noStyle (Text.trimBlank r.buffer) r.buffer)))
  else some (.ok (r.results.map Prod.snd))

theorem length_rest_readSelector {r next : Registers} (hne : r.rest ≠ []) (h : r.readSelector config = .ok next) :
    next.rest.length < r.rest.length := by
  rw [readSelector] at h
  split at h
  · obtain ⟨⟨selector, styles⟩, -, h⟩ := bind_eq_ok_iff.1 h
    dsimp only at h
    split at h
    · cases h
    · obtain ⟨ast, -, h⟩ := bind_eq_ok_iff.1 h
      cases h
      exact List.length_pos_iff.2 hne
  · next cut hcut =>
    have hlength := Text.length_after_lt hcut
    dsimp only at h
    split at h
    · cases h
    · obtain ⟨⟨selector, styles⟩, -, h⟩ := bind_eq_ok_iff.1 h
      dsimp only at h
      split at h
      · cases h
        exact hlength
      · cases h
        exact hlength
      · cases h

theorem length_rest_readBlock {pending : RawRule} {r next : Registers} (h : r.readBlock pending = .ok next) :
    next.rest.length < r.rest.length := by
  obtain ⟨block, hblock, h⟩ := bind_eq_ok_iff.1 h
  cases h
  exact Nat.lt_of_le_of_lt (List.dropWhile_sublist _).length_le (Block.length_rest_lt hblock)

/-- Every turn leaves less text to read, whatever the registers are. -/
theorem length_rest_step {r next : Registers} (hne : r.rest ≠ []) (h : r.step config = some (.ok next)) :
    next.rest.length < r.rest.length := by
  rw [step] at h
  split at h
  · exact length_rest_readSelector hne (Option.some.inj h)
  · obtain ⟨pending, -, h⟩ := Option.map_eq_some_iff.1 h
    exact length_rest_readBlock h

def run (config : Config) (r : Registers) : Option (Except Fault (List RawRule)) :=
  if _hne : r.rest = [] then r.finish
  else
    match _h : r.step config with
    | none => none
    | some (.error fault) => some (.error fault)
    | some (.ok next) => run config next
termination_by r.rest.length
decreasing_by exact length_rest_step _hne _h

/-- The registers after `n` turns on a text. -/
inductive Reached (config : Config) (text : Text) : Nat → Registers → Prop
  | start : Reached config text 0 { rest := text }
  | turn {n : Nat} {r next : Registers} (h : Reached config text n r) (hne : r.rest ≠ [])
      (hstep : r.step config = some (.ok next)) : Reached config text (n + 1) next

end Registers

/-! ### The registers of a splitter -/

def registers (s : Splitter) : Registers :=
  match s.phase with
  | .selector buffer => { rest := s.rest, buffer := buffer, results := RawRule.keyed s.saved }
  | .style pending =>
    { rest := s.rest, inSelector := false, pending := some pending, results := RawRule.keyed s.saved }

theorem registers_selector {buffer : Text} (h : s.phase = .selector buffer) :
    s.registers = { rest := s.rest, buffer := buffer, results := RawRule.keyed s.saved } := by
  rw [registers, h]

theorem registers_style {pending : RawRule} (h : s.phase = .style pending) : s.registers =
    { rest := s.rest, inSelector := false, pending := some pending, results := RawRule.keyed s.saved } := by
  rw [registers, h]

@[simp] theorem rest_registers (s : Splitter) : s.registers.rest = s.rest := by
  rw [registers]; split <;> rfl

@[simp] theorem results_registers (s : Splitter) : s.registers.results = RawRule.keyed s.saved := by
  rw [registers]; split <;> rfl

theorem readSelector_registers {buffer : Text} (hphase : s.phase = .selector buffer) :
    s.registers.readSelector config = (s.step config).map fun turn => turn.next.registers := by
  rw [registers_selector hphase, step, hphase, Registers.readSelector]
  cases hcut : Text.cutUnescaped? (· = '\x7b') s.rest with
  | none =>
    apply bind_eq_map_bind
    rintro ⟨selector, styles⟩
    dsimp only
    split
    · rfl
    · apply bind_eq_map_bind
      intro ast
      show Except.ok _ = Except.ok _
      rw [RawRule.store_keyed]
      rfl
  | some cut =>
    dsimp only
    rw [readHead]
    dsimp only
    split
    · rfl
    · apply bind_eq_map_bind
      rintro ⟨selector, styles⟩
      dsimp only
      cases SelectorList.parse config selector with
      | ok ast => rfl
      | error fault => cases fault <;> rfl

theorem readBlock_registers {pending : RawRule} (hphase : s.phase = .style pending) :
    s.registers.readBlock pending = (s.step config).map fun turn => turn.next.registers := by
  rw [registers_style hphase, step, hphase, Registers.readBlock]
  show _ = (s.readStyle pending).map _
  rw [readStyle]
  cases Block.read s.rest (!pending.styles.isEmpty) with
  | error fault => rfl
  | ok block =>
    show Except.ok _ = Except.ok _
    rw [RawRule.store_keyed]
    rfl

/-- A turn on the registers of a splitter is the turn of the splitter. -/
theorem step_registers (s : Splitter) :
    s.registers.step config = some ((s.step config).map fun turn => turn.next.registers) := by
  rw [Registers.step]
  cases hphase : s.phase with
  | selector buffer =>
    have hin : s.registers.inSelector = true := by rw [registers_selector hphase]
    rw [hin, if_pos rfl, readSelector_registers hphase]
  | style pending =>
    have hin : s.registers.inSelector = false := by rw [registers_style hphase]
    have hpending : s.registers.pending = some pending := by rw [registers_style hphase]
    rw [hin, hpending, if_neg Bool.false_ne_true, Option.map_some, readBlock_registers hphase]

theorem finish_registers (s : Splitter) : s.registers.finish = some s.finish := by
  cases hphase : s.phase with
  | selector buffer =>
    have hsaved : (RawRule.keyed s.saved).map Prod.snd = s.saved := by
      simp [RawRule.keyed, Function.comp_def]
    rw [registers_selector hphase, Registers.finish, finish, hphase]
    dsimp only
    rw [hsaved, apply_ite some]
    rfl
  | style pending =>
    rw [registers_style hphase, finish, hphase]
    rfl

/-- A run on the registers of a splitter has a result, the one of the splitter. -/
theorem run_registers (s : Splitter) : s.registers.run config = some (outcome config s) := by
  induction hn : s.rest.length using Nat.strong_induction_on generalizing s with
  | _ n ih =>
  rw [Registers.run]
  split
  · next hnil =>
    rw [rest_registers] at hnil
    rw [outcome_of_nil hnil, finish_registers]
  · next hne =>
    rw [rest_registers] at hne
    split
    · next hstep =>
      rw [step_registers] at hstep
      cases hstep
    · next fault hstep =>
      rw [step_registers, Option.some.injEq] at hstep
      cases hturn : s.step config with
      | error fault' =>
        rw [hturn] at hstep
        cases hstep
        rw [outcome_of_error hne hturn]
      | ok turn =>
        rw [hturn] at hstep
        cases hstep
    · next next hstep =>
      rw [step_registers, Option.some.injEq] at hstep
      obtain ⟨turn, hturn, rfl⟩ := map_eq_ok_iff.1 hstep
      rw [outcome_of_step hne hturn]
      exact ih _ (hn ▸ length_rest_step_lt hne hturn) turn.next rfl

/-! ### What every turn keeps -/

/-- A key of the table: a text without blank characters at its ends that is not empty. -/
def IsKey (key : Text) : Prop := Text.trimBlank key = key ∧ key ≠ []

/-- An accepted head has something before the marker, so that its rule has a key. -/
theorem Accepts.isKey {head : Text} {rule : RawRule} (h : Accepts config head rule) : IsKey rule.selector := by
  obtain ⟨hcontent, selector, hsplit, -, hkey⟩ := h
  refine ⟨by rw [hkey]; exact Text.trim_trim, fun hnil => ?_⟩
  rw [hkey, Text.trimBlank_eq_nil_iff] at hnil
  have hne : selector ≠ [] := by
    rcases Removal.split_eq_ok_iff.1 hsplit with ⟨rfl, -, -⟩ | ⟨hmarked, -⟩
    · rwa [ne_eq, Text.trimBlank_eq_nil_iff]
    · exact hmarked.selector_ne_nil
  obtain ⟨c, more, rfl⟩ := List.exists_cons_of_ne_nil hne
  -- the selector starts where the trimmed head does
  have hhead : (Text.trimBlank head).head? = some c := by
    rcases Removal.split_eq_ok_iff.1 hsplit with ⟨heq, -, -⟩ | ⟨hmarked, -⟩
    · rw [← heq]
      rfl
    · rw [hmarked.ends]
      rfl
  have hblank := hnil c List.mem_cons_self
  rw [Text.head?_trim hhead] at hblank
  cases hblank

theorem Accepts.styles_cases {head : Text} {rule : RawRule} (h : Accepts config head rule) :
    rule.styles = [] ∨ rule.styles = [Declaration.removal] := by
  obtain ⟨-, selector, hsplit, -⟩ := h
  exact (Removal.split_eq_ok_iff.1 hsplit).imp (·.2.1) (·.2)

/-- What is known of a splitter between two turns. -/
structure Settled (s : Splitter) : Prop where
  selector : ∀ buffer, s.phase = .selector buffer → buffer = [] ∨ ¬ Blank buffer ∧ buffer.getLast? = some '\x7b'
  style : ∀ pending, s.phase = .style pending →
    IsKey pending.selector ∧ (pending.styles = [] ∨ pending.styles = [Declaration.removal])
  saved : ∀ raw ∈ s.saved, IsKey raw.selector ∧ raw.styles ≠ []
  nodup : (RawRule.keys s.saved).Nodup

namespace Settled

theorem start (text : Text) : Settled { rest := text } where
  selector buffer hphase := by
    cases hphase
    exact .inl rfl
  style _ hphase := by cases hphase
  saved _ hraw := by cases hraw
  nodup := List.nodup_nil

theorem saved_save (h : s.Settled) {raw : RawRule} (hkey : IsKey raw.selector) (hstyles : raw.styles ≠ []) :
    ∀ stored ∈ raw.save s.saved, IsKey stored.selector ∧ stored.styles ≠ [] := by
  intro stored hstored
  rcases raw.save_cases s.saved with ⟨-, heq⟩ | ⟨before, old, after, hsaved, -, heq⟩
  · rw [heq] at hstored
    rcases List.mem_append.1 hstored with hstored | hstored
    · exact h.saved stored hstored
    · rw [List.mem_singleton.1 hstored]
      exact ⟨hkey, hstyles⟩
  · have hkept : ∀ other ∈ before ++ old :: after, IsKey other.selector ∧ other.styles ≠ [] := hsaved ▸ h.saved
    rw [heq] at hstored
    rcases List.mem_append.1 hstored with hstored | hstored
    · exact hkept stored (List.mem_append_left _ hstored)
    · rcases List.mem_cons.1 hstored with rfl | hstored
      · have hold := hkept old (by simp)
        exact ⟨hold.1, List.append_ne_nil_of_left_ne_nil hold.2 _⟩
      · exact hkept stored (by simp [hstored])

theorem turn (h : s.Settled) (hturn : Turns config s next) : next.Settled := by
  have hnodup := hturn.nodup h.nodup
  cases hturn with
  | @last buffer rule phase free accepts marked =>
    refine ⟨fun _ hphase => ?_, fun _ hphase => (nomatch hphase), h.saved_save accepts.isKey marked, hnodup⟩
    cases hphase
    exact .inl rfl
  | @refuse buffer before after phase rest free unescaped refuses =>
    refine ⟨fun _ hphase => ?_, fun _ hphase => (nomatch hphase), h.saved, hnodup⟩
    cases hphase
    refine .inr ⟨fun hblank => refuses.content (Text.blank_append.1 hblank).1, List.getLast?_concat⟩
  | @accept buffer before after rule phase rest free unescaped accepts =>
    refine ⟨fun _ hphase => (nomatch hphase), fun _ hphase => ?_, h.saved, hnodup⟩
    cases hphase
    exact ⟨accepts.isKey, accepts.styles_cases⟩
  | @block pending body after ds phase rest free unescaped declares styled =>
    refine ⟨fun _ hphase => ?_, fun _ hphase => (nomatch hphase), h.saved_save (h.style pending phase).1 styled,
      hnodup⟩
    cases hphase
    exact .inl rfl

end Settled

/-! ### Runs on registers -/

namespace Registers

structure Sound (r : Registers) : Prop where
  /-- Declarations are read next exactly if a rule is pending. -/
  mode : r.inSelector = false ↔ r.pending.isSome = true
  /-- Before a block nothing of a selector is left, and the rule has at most the declaration of the marker. -/
  style : r.inSelector = false → r.buffer = [] ∧
    ∀ pending, r.pending = some pending → pending.styles = [] ∨ pending.styles = [Declaration.removal]
  /-- What is read of a selector ends in the brace that belongs to it. -/
  selector : r.inSelector = true → r.buffer = [] ∨ ¬ Blank r.buffer ∧ r.buffer.getLast? = some '\x7b'
  /-- Rules stand under their own selectors and have declarations. -/
  results : ∀ key raw, (key, raw) ∈ r.results →
    raw.selector = key ∧ Text.trimBlank key = key ∧ key ≠ [] ∧ raw.styles ≠ []
  nodup : (r.results.map Prod.fst).Nodup

/-- What a completed turn does to the text and to the table. -/
structure Advances (r next : Registers) : Prop where
  shorter : next.rest.length < r.rest.length
  /-- The table stays, or it gets a new key at the end, or the rule of one key gets more declarations. -/
  results : next.results = r.results ∨
    (∃ key raw, key ∉ r.results.map Prod.fst ∧ next.results = r.results ++ [(key, raw)]) ∨
    ∃ before key raw after more, r.results = before ++ (key, raw) :: after ∧
      next.results = before ++ (key, { raw with styles := raw.styles ++ more }) :: after

end Registers

open Registers (Reached Sound Advances)

theorem Settled.sound (h : s.Settled) : s.registers.Sound := by
  have hresults : ∀ key raw, (key, raw) ∈ s.registers.results →
      raw.selector = key ∧ Text.trimBlank key = key ∧ key ≠ [] ∧ raw.styles ≠ [] := by
    intro key raw hmem
    rw [results_registers] at hmem
    obtain ⟨stored, hstored, heq⟩ := List.mem_map.1 hmem
    cases heq
    obtain ⟨hkey, hstyles⟩ := h.saved raw hstored
    exact ⟨rfl, hkey.1, hkey.2, hstyles⟩
  have hnodup : (s.registers.results.map Prod.fst).Nodup := by
    rw [results_registers, RawRule.keyed, List.map_map]
    exact h.nodup
  cases hphase : s.phase with
  | selector buffer =>
    have hregisters := registers_selector hphase
    refine ⟨?_, ?_, fun _ => ?_, hresults, hnodup⟩
    · simp [hregisters]
    · simp [hregisters]
    · rw [hregisters]
      exact h.selector buffer hphase
  | style pending =>
    have hregisters := registers_style hphase
    refine ⟨?_, fun _ => ?_, ?_, hresults, hnodup⟩
    · simp [hregisters]
    · rw [hregisters]
      refine ⟨rfl, fun raw hraw => ?_⟩
      cases hraw
      exact (h.style pending hphase).2
    · simp [hregisters]

theorem Turns.saved_cases (h : Turns config s next) :
    next.saved = s.saved ∨ ∃ raw, next.saved = RawRule.save raw s.saved := by
  cases h with
  | last phase free accepts marked => exact .inr ⟨_, rfl⟩
  | refuse phase rest free unescaped refuses => exact .inl rfl
  | accept phase rest free unescaped accepts => exact .inl rfl
  | block phase rest free unescaped declares styled => exact .inr ⟨_, rfl⟩

theorem Turns.advances (h : Turns config s next) (hne : s.rest ≠ []) : s.registers.Advances next.registers := by
  obtain ⟨event, hstep⟩ := h.step_eq
  refine ⟨by simpa using length_rest_step_lt hne hstep, ?_⟩
  rw [results_registers, results_registers]
  rcases h.saved_cases with heq | ⟨raw, heq⟩
  · exact .inl (by rw [heq])
  · rcases raw.save_cases s.saved with ⟨hnew, hsave⟩ | ⟨before, stored, after, hsaved, -, hsave⟩
    · refine .inr (.inl ⟨raw.selector, raw, ?_, by rw [heq, hsave]; simp [RawRule.keyed]⟩)
      simpa [RawRule.keyed] using hnew
    · refine .inr (.inr ⟨RawRule.keyed before, stored.selector, stored, RawRule.keyed after, raw.styles, ?_, ?_⟩)
      · rw [hsaved]
        simp [RawRule.keyed]
      · rw [heq, hsave]
        simp [RawRule.keyed]

/-- A brace that belongs to a selector is only passed over. -/
theorem step_of_refuses {cut : Text.Cut} (hin : s.registers.inSelector = true)
    (hcut : Text.cutUnescaped? (· = '\x7b') s.registers.rest = some cut)
    (h : Refuses config (s.registers.buffer ++ cut.before)) :
    ∃ next, s.registers.step config = some (.ok next) ∧
      next.buffer ++ next.rest = s.registers.buffer ++ s.registers.rest ∧ next.results = s.registers.results := by
  cases hphase : s.phase with
  | style pending =>
    rw [registers_style hphase] at hin
    cases hin
  | selector buffer =>
    rw [registers_selector hphase] at hcut h
    obtain ⟨before, mark, after⟩ := cut
    obtain ⟨hrest, hmark, hescapes, hfree⟩ := Text.cutUnescaped?_eq_some_iff.1 hcut
    obtain rfl : mark = '\x7b' := by simpa using hmark
    have hrest : s.rest = before ++ '\x7b' :: after := hrest
    obtain ⟨event, hstep⟩ := (Turns.refuse hphase hrest hfree hescapes h).step_eq
    refine ⟨{ rest := after, buffer := buffer ++ before ++ ['\x7b'], results := RawRule.keyed s.saved }, ?_, ?_, ?_⟩
    · rw [step_registers, hstep]
      rfl
    · rw [registers_selector hphase, hrest]
      simp
    · rw [registers_selector hphase]

/-- Registers that are reached belong to a splitter. -/
theorem Registers.Reached.exists_splitter {n : Nat} {r : Registers} (h : Reached config text n r) :
    n + r.rest.length ≤ text.length ∧ ∃ s : Splitter, s.Settled ∧ r = s.registers := by
  induction h with
  | start => exact ⟨by simp, { rest := text }, .start text, rfl⟩
  | @turn n r next h hne hstep ih =>
    obtain ⟨hlength, s, hs, rfl⟩ := ih
    have hshorter := Registers.length_rest_step hne hstep
    refine ⟨by omega, ?_⟩
    rw [step_registers, Option.some.injEq] at hstep
    obtain ⟨turn, hturn, rfl⟩ := map_eq_ok_iff.1 hstep
    exact ⟨turn.next, hs.turn (turns_of_step hturn), rfl⟩

/-- In every state that a run on registers reaches, the registers fit each other; a turn makes progress and adds to
the table at one place, and a brace that belongs to a selector changes nothing but where the selector is kept.
There are at most as many turns as characters, and the run has a result, which is that of the splitter: neither
a block nor the end of the text lacks its rule. -/
theorem registers_sound (config : Config) (text : Text) :
    (∀ n r, Reached config text n r → r.Sound ∧ n + r.rest.length ≤ text.length ∧
      (∀ next, r.rest ≠ [] → r.step config = some (.ok next) → r.Advances next) ∧
      ∀ cut, r.inSelector = true → Text.cutUnescaped? (· = '\x7b') r.rest = some cut →
        Refuses config (r.buffer ++ cut.before) → ∃ next, r.step config = some (.ok next) ∧
          next.buffer ++ next.rest = r.buffer ++ r.rest ∧ next.results = r.results) ∧
    Registers.run config { rest := text } = some (rules config text) := by
  refine ⟨fun n r hr => ?_, run_registers { rest := text }⟩
  obtain ⟨hlength, s, hs, rfl⟩ := hr.exists_splitter
  refine ⟨hs.sound, hlength, fun next hne hstep => ?_, fun cut hin hcut hrefuses => step_of_refuses hin hcut hrefuses⟩
  rw [step_registers, Option.some.injEq] at hstep
  obtain ⟨turn, hturn, rfl⟩ := map_eq_ok_iff.1 hstep
  exact (turns_of_step hturn).advances (by rwa [rest_registers] at hne)

theorem registers_sound_brace :
    ∃ r next, Refuses .standard "a[x=\"".toList ∧ Reached .standard "a[x=\"\x7b\"]\x7bb:c\x7d".toList 1 r ∧
      r.buffer = "a[x=\"\x7b".toList ∧ r.buffer ++ r.rest = "a[x=\"\x7b\"]\x7bb:c\x7d".toList ∧
      r.step .standard = some (.ok next) ∧ r.Advances next ∧ next.pending.isSome = true ∧ next.Sound ∧
      Registers.run .standard { rest := "a[x=\"\x7b\"]\x7bb:c\x7d".toList } =
        some (rules .standard "a[x=\"\x7b\"]\x7bb:c\x7d".toList) := by
  obtain ⟨hreached, hrun⟩ := registers_sound .standard "a[x=\"\x7b\"]\x7bb:c\x7d".toList
  have hrefuses : Refuses .standard "a[x=\"".toList :=
    ⟨by decide, _, _, _, rfl, (SelectorList.parse_eq_compile _ _).trans rfl⟩
  obtain ⟨-, -, -, hpassed⟩ := hreached 0 _ .start
  obtain ⟨r, hr, htext, -⟩ := hpassed _ rfl rfl hrefuses
  have hfirst : r = { rest := "\"]\x7bb:c\x7d".toList, buffer := "a[x=\"\x7b".toList } := by
    have hstep : Registers.step .standard { rest := "a[x=\"\x7b\"]\x7bb:c\x7d".toList } =
        some (.ok { rest := "\"]\x7bb:c\x7d".toList, buffer := "a[x=\"\x7b".toList }) := rfl
    exact Except.ok.inj (Option.some.inj (hr.symm.trans hstep))
  have honce : Reached .standard "a[x=\"\x7b\"]\x7bb:c\x7d".toList 1 r := .turn .start (by decide) hr
  obtain ⟨-, -, hadvances, -⟩ := hreached 1 r honce
  subst hfirst
  -- the second brace opens a block
  have hcompiled : SelectorList.parse .standard "a[x=\"\x7b\"]".toList = .ok [[.regular "a[x=\"\x7b\"]".toList]] :=
    (SelectorList.parse_eq_compile _ _).trans (eq_ok_of_toOption (by cbv))
  have haccepts : Accepts .standard ("a[x=\"\x7b".toList ++ "\"]".toList)
      ⟨"a[x=\"\x7b\"]".toList, [[.regular "a[x=\"\x7b\"]".toList]], []⟩ := ⟨by decide, _, rfl, hcompiled, by decide⟩
  have hcut : Text.cutUnescaped? (· = '\x7b') "\"]\x7bb:c\x7d".toList =
      some ⟨"\"]".toList, '\x7b', "b:c\x7d".toList⟩ := rfl
  obtain ⟨hrest, -, hescapes, hfree⟩ := Text.cutUnescaped?_eq_some_iff.1 hcut
  have hturn := Turns.accept (s := { rest := "\"]\x7bb:c\x7d".toList, phase := .selector "a[x=\"\x7b".toList })
    rfl hrest hfree hescapes haccepts
  obtain ⟨event, hstep⟩ := hturn.step_eq
  have hresult : Registers.step .standard { rest := "\"]\x7bb:c\x7d".toList, buffer := "a[x=\"\x7b".toList } =
      some (.ok {
        rest := "b:c\x7d".toList
        inSelector := false
        pending := some ⟨"a[x=\"\x7b\"]".toList, [[.regular "a[x=\"\x7b\"]".toList]], []⟩ }) :=
    (step_registers _).trans (congrArg (some ·) (congrArg (Except.map fun turn => turn.next.registers) hstep))
  exact ⟨_, _, hrefuses, honce, rfl, htext, hresult, hadvances _ (by decide) hresult, rfl,
    (hreached 2 _ (.turn honce (by decide) hresult)).1, hrun⟩

end Splitter

end CosmeticFilter
