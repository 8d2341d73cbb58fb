import CosmeticFilter.Proofs.Target

/-!
# The selectors of a list

`SelectorList.parse_append_comma` says that nothing of a selector is left behind at the comma after it: what
follows the comma is compiled in the same way after every list that ends outside parentheses, and where it fails
it fails with the same kind of fault.

The run over the whole text is the run over the list, white space and a comma, and the run over the rest
(`Reaches.run_append`, `run_spaces`). The last one starts in an empty state, but for the selectors that are
complete, the positions of the tokens and the text that faults quote. None of them changes what is read:
`run_prepend` and `run_placed` are equations between runs, and `alike_run` is one up to the kind of a fault.
-/

namespace CosmeticFilter

/-! ### Kinds of faults -/

/-- What a fault is about, whatever it says of the text. -/
inductive FaultKind where
  | malformed
  | violation
  | misshapen
  | sheet
  deriving DecidableEq

def Fault.kind : Fault → FaultKind
  | .malformed _ => .malformed
  | .violation _ => .violation
  | .misshapen _ => .misshapen
  | .sheet _ => .sheet

/-- The computations give the same result or fail with the same kind of fault. -/
def Alike {α : Type} (x y : Except Fault α) : Prop := x.mapError Fault.kind = y.mapError Fault.kind

section

variable {α β : Type} {x y : Except Fault α}

theorem Alike.refl (x : Except Fault α) : Alike x x := rfl

theorem Alike.bind {f g : α → Except Fault β} (h : Alike x y) (hf : ∀ a, Alike (f a) (g a)) :
    Alike (x.bind f) (y.bind g) := by
  unfold Alike at h
  match x, y with
  | .ok a, .ok b =>
    cases h
    exact hf a
  | .error fault, .error fault' =>
    have hkind : fault.kind = fault'.kind := Except.error.inj h
    show Except.error fault.kind = Except.error fault'.kind
    rw [hkind]
  | .ok a, .error fault => cases h
  | .error fault, .ok b => cases h

theorem Alike.map (f : α → β) (h : Alike x y) : Alike (x.map f) (y.map f) := h.bind fun a => .refl (.ok (f a))

end

/-- Neither white space nor the end of a selector after it continues a part. -/
theorem Token.continuesAfterSpace_spaces {gap rest : List Token} {t : Token}
    (hgap : ∀ u ∈ gap, u.Proper ∧ u.isOf Text.isSpace = true) (ht : t.Proper)
    (hend : t.text = [Mark.comma] ∨ t.text = [Mark.parenRight]) :
    continuesAfterSpace (gap ++ t :: rest).head? = false := by
  cases gap with
  | nil => exact continuesAfterSpace_eq_false ht (.inr hend)
  | cons u gap =>
    obtain ⟨hu, hspace⟩ := hgap u (by simp)
    exact continuesAfterSpace_eq_false hu (.inl hspace)

namespace Selector

variable {input input' : Input} {s : State} {t : Token} {rest tokens : List Token}

namespace State

/-! ### The text that faults quote -/

theorem alike_frame_finish (f : Frame) (text text' : Text) : Alike (f.finish text) (f.finish text') := by
  unfold Frame.finish
  split
  · rfl
  · rfl

theorem alike_closeArgument (a : Argument) : Alike (s.closeArgument input a) (s.closeArgument input' a) := by
  unfold closeArgument
  split
  · split <;> rfl
  · split <;> rfl

theorem alike_readArgument (a : Argument) : Alike (s.readArgument input a t) (s.readArgument input' a t) := by
  unfold readArgument
  dsimp only
  split
  · rfl
  · split
    · rfl
    · split
      · rfl
      · split
        · split
          · exact alike_closeArgument a
          · rfl
        · rfl

theorem alike_checkAfterRemove : Alike (s.checkAfterRemove input t rest) (s.checkAfterRemove input' t rest) := by
  unfold checkAfterRemove
  split
  · rfl
  · split <;> rfl

theorem alike_checkRemove : Alike (s.checkRemove input) (s.checkRemove input') := by
  unfold checkRemove
  split
  · rfl
  · split <;> rfl

theorem alike_openExtended (hconfig : input.config = input'.config) (name : Text) (kind : PseudoClass.Kind) :
    Alike (s.openExtended input name kind) (s.openExtended input' name kind) := by
  cases kind with
  | relative =>
    show Alike (s.openRelative input name) (s.openRelative input' name)
    unfold openRelative
    rw [hconfig]
    split <;> rfl
  | absolute =>
    show Alike (s.openAbsolute input name) (s.openAbsolute input' name)
    unfold openAbsolute
    by_cases hname : name = PseudoClass.removeName
    · rw [if_pos hname, if_pos hname]
      exact alike_checkRemove.bind fun _ => .refl _
    · rw [if_neg hname, if_neg hname]
      rfl

theorem alike_readColon (hconfig : input.config = input'.config) :
    Alike (s.readColon input rest) (s.readColon input' rest) := by
  unfold readColon
  split
  · rfl
  · next name kind hnamed =>
    split
    · rfl
    · apply (Alike.refl _).bind
      intro _
      apply (Alike.refl _).bind
      intro _
      split
      · exact (alike_openExtended hconfig name kind).bind fun _ => .refl _
      · rfl

theorem alike_closeRelative (enclosing : Suspended) (outer : List Suspended) :
    Alike (s.closeRelative input enclosing outer) (s.closeRelative input' enclosing outer) := by
  unfold closeRelative
  split
  · rfl
  · exact (alike_frame_finish _ _ _).bind fun _ => .refl _

theorem alike_readEnd? : Option.Rel Alike (s.readEnd? input t) (s.readEnd? input' t) := by
  unfold readEnd?
  split
  · exact .none
  · split
    · exact .some ((alike_frame_finish _ _ _).bind fun _ => .refl _)
    · split
      · split
        · exact .some (alike_closeRelative _ _)
        · exact .none
      · exact .none

theorem alike_step (hconfig : input.config = input'.config) :
    Alike (s.step input t rest) (s.step input' t rest) := by
  unfold step
  split
  · rfl
  · exact (alike_readArgument _).map _
  · apply alike_checkAfterRemove.bind
    intro _
    have hend : Option.Rel Alike (s.readEnd? input t) (s.readEnd? input' t) := alike_readEnd?
    revert hend
    generalize s.readEnd? input t = first
    generalize s.readEnd? input' t = second
    intro hend
    cases hend with
    | some h => exact h.bind fun _ => .refl _
    | none =>
      dsimp only
      split
      · exact alike_readColon hconfig
      · rfl

/-- The text of the input matters for what faults quote only. -/
theorem alike_run (hconfig : input.config = input'.config) (s : State) (skip : Nat) (tokens : List Token) :
    Alike (s.run input skip tokens) (s.run input' skip tokens) := by
  induction tokens generalizing s skip with
  | nil => rfl
  | cons t rest ih =>
    cases skip with
    | succ skip => exact ih s skip
    | zero =>
      rw [run_cons, run_cons]
      exact (alike_step hconfig).bind fun next => ih next.state next.skip

theorem alike_finish : Alike (s.finish input) (s.finish input') := by
  unfold finish
  split
  · split <;> rfl
  · rfl
  · rfl
  · exact (alike_frame_finish _ _ _).bind fun _ => .refl _

/-! ### The positions of tokens -/

theorem step_placed (p q : Nat) :
    s.step input { t with position := p } (Token.placed q rest) = s.step input t rest := by
  match rest with
  | [] => rfl
  | [_] => rfl
  | _ :: _ :: _ => rfl

theorem run_placed (s : State) (skip position : Nat) (tokens : List Token) :
    s.run input skip (Token.placed position tokens) = s.run input skip tokens := by
  induction tokens generalizing s skip position with
  | nil => rfl
  | cons t rest ih =>
    cases skip with
    | succ skip => exact ih s skip _
    | zero =>
      rw [Token.placed, run_cons, run_cons, step_placed]
      congr 1
      funext next
      exact ih next.state next.skip _

/-! ### What is around the selector -/

/-- The map changes a state only around the selector that is being collected. -/
structure Rebases (φ : State → State) : Prop where
  frame : ∀ s, (φ s).frame = s.frame
  mode : ∀ s, (φ s).mode = s.mode
  withFrame : ∀ s f, φ (s.withFrame f) = (φ s).withFrame f
  withMode : ∀ (s : State) (mode : Mode), φ { s with mode := mode } = { φ s with mode := mode }

namespace Rebases

variable {φ : State → State} (h : Rebases φ)

include h

theorem write (s : State) (text : Text) : φ (s.write text) = (φ s).write text := by
  unfold State.write
  rw [h.withFrame, h.frame]

theorem update (s : State) (f : Frame) (mode : Mode) :
    ({ (φ s).withFrame f with mode := mode } : State) = φ { s.withFrame f with mode := mode } := by
  rw [← h.withFrame]
  exact (h.withMode _ mode).symm

theorem readAttribute (s : State) (body : Text) (t : Token) :
    (φ s).readAttribute body t = (s.readAttribute body t).map φ := by
  unfold State.readAttribute State.write
  simp only [h.frame, h.update]
  split
  · exact bind_eq_map_bind fun closed => rfl
  · rfl

theorem closeArgument (s : State) (a : Argument) :
    (φ s).closeArgument input a = (s.closeArgument input a).map φ := by
  unfold State.closeArgument
  rw [h.frame, h.update, h.update]
  split
  · split <;> rfl
  · split <;> rfl

theorem readArgument (s : State) (a : Argument) (t : Token) :
    (φ s).readArgument input a t = (s.readArgument input a t).map φ := by
  have hkeep : ∀ a : Argument, ({ φ s with mode := .argument a } : State) = φ { s with mode := .argument a } :=
    fun a => (h.withMode s (.argument a)).symm
  unfold State.readArgument
  simp only [hkeep]
  split
  · rfl
  · split
    · cases Regexp.opensIn a.name a.text <;> rfl
    · split
      · rfl
      · split
        · split
          · exact h.closeArgument s a
          · rfl
        · rfl

theorem copyColon (s : State) (rest : List Token) : (φ s).copyColon rest = φ (s.copyColon rest) := by
  unfold State.copyColon
  rw [h.frame, h.withFrame]

theorem readSpace (s : State) (t : Token) (rest : List Token) : (φ s).readSpace t rest = φ (s.readSpace t rest) := by
  unfold State.readSpace
  rw [h.frame, ← h.write]
  split
  · rfl
  · split
    · rfl
    · split <;> rfl

theorem readPlain (s : State) (t : Token) : (φ s).readPlain t = φ (s.readPlain t) := by
  unfold State.readPlain
  dsimp only
  rw [← h.write, h.frame, h.frame, ← h.withMode]
  split
  · rfl
  · split
    · exact (h.withFrame _ _).symm
    · split
      · exact (h.withFrame _ _).symm
      · rfl

end Rebases

end State

/-! ### Selectors before the list -/

/-- The outermost of the lists that are interrupted gets `list` before its selectors. -/
def prependOuter (list : SelectorList) : List Suspended → List Suspended
  | [] => []
  | [e] => [{ e with level.finished := list ++ e.level.finished }]
  | e :: enclosing :: outer => e :: prependOuter list (enclosing :: outer)

theorem names_prependOuter (list : SelectorList) (outer : List Suspended) :
    (prependOuter list outer).map Suspended.name = outer.map Suspended.name := by
  fun_induction prependOuter list outer with
  | case1 => rfl
  | case2 e => rfl
  | case3 e enclosing outer ih => rw [List.map_cons, List.map_cons, ih]

/-- The state with `list` before the selectors of the whole input. -/
def State.prepend (list : SelectorList) (s : State) : State :=
  match s.outer with
  | [] => { s with level.finished := list ++ s.level.finished }
  | e :: outer => { s with outer := prependOuter list (e :: outer) }

def Step.prepend (list : SelectorList) (next : Step) : Step := { next with state := next.state.prepend list }

namespace State

variable (list : SelectorList)

theorem rebases_prepend : Rebases (prepend list) where
  frame := fun ⟨_, _, outer⟩ => by cases outer <;> rfl
  mode := fun ⟨_, _, outer⟩ => by cases outer <;> rfl
  withFrame := fun ⟨_, _, outer⟩ _ => by cases outer <;> rfl
  withMode := fun ⟨_, _, outer⟩ _ => by cases outer <;> rfl

theorem outer_prepend (s : State) : (s.prepend list).outer = prependOuter list s.outer := by
  obtain ⟨mode, level, outer⟩ := s
  cases outer <;> rfl

theorem openNames_prepend (s : State) : (s.prepend list).openNames = s.openNames := by
  unfold openNames
  rw [outer_prepend, names_prependOuter]

theorem depth_prepend (s : State) : (s.prepend list).depth = s.depth := by
  have hlength := congrArg List.length (openNames_prepend list s)
  unfold openNames at hlength
  rwa [List.length_map, List.length_map] at hlength

theorem readComma_prepend (s : State) :
    (s.prepend list).readComma input = (s.readComma input).map (prepend list) := by
  obtain ⟨mode, level, outer⟩ := s
  cases outer with
  | nil =>
    apply bind_eq_map_bind
    intro selector
    simp [prepend, pure, Except.pure, Except.map]
  | cons e outer => exact bind_eq_map_bind fun _ => rfl

theorem closeRelative_map {φ : State → State} {s s' : State} {e e' : Suspended} {outer outer' : List Suspended}
    (hlevel : s'.level = s.level) (hname : e'.name = e.name)
    (hclosed : ∀ part, ({ s' with
        level := { e'.level with frame := e'.level.frame.push part }
        outer := outer' } : State) = φ { s with
        level := { e.level with frame := e.level.frame.push part }
        outer := outer }) :
    s'.closeRelative input e' outer' = (s.closeRelative input e outer).map φ := by
  unfold closeRelative frame
  rw [hlevel, hname]
  split
  · rfl
  · apply bind_eq_map_bind
    intro selector
    exact congrArg Except.ok (hclosed _)

theorem closeRelative_prepend (input : Input) {s : State} {e : Suspended} {outer : List Suspended}
    (houter : s.outer = e :: outer) :
    ∃ e' outer', (s.prepend list).outer = e' :: outer' ∧
      (s.prepend list).closeRelative input e' outer' = (s.closeRelative input e outer).map (prepend list) := by
  obtain ⟨mode, level, _⟩ := s
  cases houter
  cases outer with
  | nil =>
    exact ⟨{ e with level.finished := list ++ e.level.finished }, [], rfl, closeRelative_map rfl rfl fun _ => rfl⟩
  | cons enclosing outer =>
    exact ⟨e, prependOuter list (enclosing :: outer), rfl, closeRelative_map rfl rfl fun _ => rfl⟩

theorem readEnd?_prepend (s : State) (t : Token) :
    (s.prepend list).readEnd? input t = (s.readEnd? input t).map fun next => next.map (prepend list) := by
  unfold readEnd?
  rw [(rebases_prepend list).frame, readComma_prepend]
  split
  · rfl
  · split
    · rfl
    · split
      · cases houter : s.outer with
        | nil =>
          rw [outer_prepend, houter]
          rfl
        | cons e outer =>
          obtain ⟨e', outer', houter', hclose⟩ := closeRelative_prepend list input houter
          rw [houter']
          exact congrArg some hclose
      · rfl

theorem checkRemove_prepend (s : State) : (s.prepend list).checkRemove input = s.checkRemove input := by
  unfold checkRemove
  rw [(rebases_prepend list).frame, outer_prepend]
  match s.outer with
  | [] => rfl
  | [_] => rfl
  | _ :: _ :: _ => rfl

theorem openExtended_prepend (s : State) (name : Text) (kind : PseudoClass.Kind) :
    (s.prepend list).openExtended input name kind = (s.openExtended input name kind).map (prepend list) := by
  cases kind with
  | relative =>
    show (s.prepend list).openRelative input name = (s.openRelative input name).map (prepend list)
    unfold openRelative
    rw [depth_prepend]
    split
    · rfl
    · obtain ⟨mode, level, outer⟩ := s
      cases outer <;> rfl
  | absolute =>
    show (s.prepend list).openAbsolute input name = (s.openAbsolute input name).map (prepend list)
    unfold openAbsolute
    rw [(rebases_prepend list).frame, checkRemove_prepend, (rebases_prepend list).update]
    split
    · exact bind_eq_map_bind fun _ => rfl
    · rfl

theorem readColon_prepend (s : State) (rest : List Token) :
    (s.prepend list).readColon input rest = (s.readColon input rest).map (Step.prepend list) := by
  unfold readColon
  rw [(rebases_prepend list).frame, (rebases_prepend list).copyColon, openNames_prepend]
  split
  · rfl
  · split
    · exact bind_eq_map_bind fun _ => rfl
    · apply bind_eq_map_bind
      intro _
      apply bind_eq_map_bind
      intro _
      split
      · rw [openExtended_prepend]
        cases s.openExtended input _ _ <;> rfl
      · rfl

theorem step_prepend (s : State) (t : Token) (rest : List Token) :
    (s.prepend list).step input t rest = (s.step input t rest).map (Step.prepend list) := by
  have hmap : ∀ x : Except Fault State, (x.map (prepend list)).map (fun next => ({ state := next } : Step)) =
      (x.map fun next => ({ state := next } : Step)).map (Step.prepend list) := by
    intro x
    cases x <;> rfl
  unfold step
  rw [(rebases_prepend list).mode]
  split
  · rw [(rebases_prepend list).readAttribute, hmap]
  · rw [(rebases_prepend list).readArgument, hmap]
  · unfold readRegular checkAfterRemove
    rw [(rebases_prepend list).frame]
    apply bind_eq_map_bind
    intro _
    rw [readEnd?_prepend]
    cases s.readEnd? input t with
    | some next => exact hmap next
    | none =>
      dsimp only [Option.map]
      rw [readColon_prepend, (rebases_prepend list).readSpace, (rebases_prepend list).readPlain]
      split
      · rfl
      · split <;> rfl

theorem run_prepend (s : State) (skip : Nat) (tokens : List Token) :
    (s.prepend list).run input skip tokens = (s.run input skip tokens).map (prepend list) := by
  induction tokens generalizing s skip with
  | nil => rfl
  | cons t rest ih =>
    cases skip with
    | succ skip => exact ih s skip
    | zero =>
      rw [run_cons, run_cons, step_prepend]
      cases s.step input t rest with
      | error fault => rfl
      | ok next => exact ih next.state next.skip

theorem finish_prepend (s : State) : (s.prepend list).finish input = (s.finish input).map (list ++ ·) := by
  -- inside an argument of an absolute pseudo-class the end of the input is a fault, whatever is around it
  have hargument : ∀ (a : Argument) (level : Level) (outer : List Suspended),
      finish input ⟨.argument a, level, outer⟩ = (finish input ⟨.argument a, level, outer⟩).map (list ++ ·) := by
    intro a level outer
    show (if a.inRegexp then _ else _) = Except.map _ (if a.inRegexp then _ else _)
    split <;> rfl
  obtain ⟨_ | body | a, level, outer⟩ := s
  · match outer with
    | [] =>
      apply bind_eq_map_bind
      intro selector
      simp [prepend, pure, Except.pure, Except.map]
    | [_] => rfl
    | _ :: _ :: _ => rfl
  · match outer with
    | [] => rfl
    | [_] => rfl
    | _ :: _ :: _ => rfl
  · match outer with
    | [] => exact hargument a level []
    | [_] => exact hargument a level _
    | _ :: _ :: _ => exact hargument a level _

/-! ### Up to a comma -/

section

variable {config : Config} {final : State} {more : List Token} {next : Step}

theorem Move.skip_le (h : Move config s t rest next) : next.skip ≤ rest.length := by
  have hopens : ∀ {name : Text} {kind : PseudoClass.Kind}, s.Opens rest name kind → 2 ≤ rest.length := by
    intro name kind hopens
    obtain ⟨word, paren, more, rfl, -⟩ := hopens.tokens
    simp
  cases h with
  | openRelative mode mark removed opens limit => exact hopens opens
  | openAbsolute mode mark removed opens remove => exact hopens opens
  | _ => exact Nat.zero_le _

/-- The last move of a text is the same before tokens that do not continue it. -/
theorem Move.onto (h : Move config s t [] next) (hmore : Token.continuesAfterSpace more.head? = false)
    (hspace : t.isOf Text.isSpace = false) : Move config s t more next := by
  obtain ⟨hnamed, hcolon, -⟩ := of_not_continuesAfterSpace hmore
  cases h with
  | inAttribute mode read => exact .inAttribute mode read
  | inArgument mode read => exact .inArgument mode read
  | comma mode mark depth regular => exact .comma mode mark depth regular
  | close mode mark depth removed stack regular => exact .close mode mark depth removed stack regular
  | colon mode mark removed plain =>
    have hcopy : s.copyColon more = s.copyColon [] := by
      unfold copyColon
      rw [hcolon]
      rfl
    rw [← hcopy]
    exact .colon mode mark removed (by simp [hnamed])
  | openRelative mode mark removed opens limit => cases opens.named
  | openAbsolute mode mark removed opens remove => cases opens.named
  | keepSpace mode space kept =>
    rw [space] at hspace
    cases hspace
  | dropSpace mode space depth dropped =>
    rw [space] at hspace
    cases hspace
  | plain mode removed ordinary => exact .plain mode removed ordinary

/-- A run goes on after a text as after its tokens, if the tokens after it do not continue it. -/
theorem Reaches.run_append (h : Reaches input.config s tokens final) (htrimmed : Token.Trimmed tokens)
    (hmore : Token.continuesAfterSpace more.head? = false) :
    s.run input 0 (tokens ++ more) = final.run input 0 more := by
  induction h with
  | refl s => rfl
  | @step s final t rest next hmove h ih =>
    -- a step sees the tokens after the text only from the last token of the text
    have hmove' : Move input.config s t (rest ++ more) next := by
      by_cases hnil : rest = []
      · subst hnil
        exact hmove.onto hmore (htrimmed t rfl)
      · exact hmove.append hnil
    rw [List.cons_append, run_cons_of_step (step_eq_ok_iff.2 hmove'), run_eq_drop,
      List.drop_append_of_le_length hmove.skip_le]
    exact ih ((htrimmed.drop 1).drop _)

/-- White space before a comma is dropped. -/
theorem run_spaces {gap : List Token} (hgap : ∀ u ∈ gap, u.Proper ∧ u.isOf Text.isSpace = true) (ht : t.Proper)
    (hcomma : t.text = [Mark.comma]) (hmode : s.mode = .regular) (hdepth : s.frame.parenDepth = 0) :
    s.run input 0 (gap ++ t :: rest) = s.run input 0 (t :: rest) := by
  induction gap with
  | nil => rfl
  | cons u gap ih =>
    have hgap' : ∀ v ∈ gap, v.Proper ∧ v.isOf Text.isSpace = true := fun v hv => hgap v (by simp [hv])
    have hhead : Token.continuesAfterSpace (gap ++ t :: rest).head? = false :=
      Token.continuesAfterSpace_spaces hgap' ht (.inl hcomma)
    have hdrop : Move input.config s u (gap ++ t :: rest) { state := s } :=
      .dropSpace hmode (hgap u (by simp)).2 hdepth fun _ => hhead
    rw [List.cons_append, run_cons_of_step (step_eq_ok_iff.2 hdrop)]
    exact ih hgap'

end

end State

end Selector

/-! ### Compiling lists -/

namespace SelectorList

open Selector

variable {config : Config} {a b rest : Text} {list : SelectorList} {final : State}

/-- Compiles the text after a comma, without the selectors before it. -/
def compileRest (input : Input) (text : Text) : Except Fault SelectorList :=
  (({} : State).run input 0 (Token.scan text)).bind (State.finish input)

theorem alike_compileRest (selector selector' : Text) :
    Alike (compileRest ⟨selector, config⟩ rest) (compileRest ⟨selector', config⟩ rest) := by
  have hrun : Alike (({} : State).run ⟨selector, config⟩ 0 (Token.scan rest))
      (({} : State).run ⟨selector', config⟩ 0 (Token.scan rest)) := State.alike_run (by rfl) _ _ _
  exact hrun.bind fun _ => State.alike_finish

/-- The tokens of a list that goes on after a comma. -/
theorem scan_append_comma (hne : Text.trimSpace a ≠ [])
    (hrest : Text.trimSpace (Mark.comma :: b) = Mark.comma :: rest) :
    ∃ gap p q, (∀ c ∈ gap, Text.isSpace c = true) ∧
      Token.scan (Text.trimSpace (a ++ Mark.comma :: b)) = Token.scan (Text.trimSpace a) ++
        (Token.scanFrom p gap ++ ⟨.mark, [Mark.comma], q⟩ :: Token.placed (q + 1) (Token.scan rest)) := by
  obtain ⟨-, gap, -, hgap, htrim⟩ := Text.exists_trim_append hne
  have hwhole : Text.trimSpace (a ++ Mark.comma :: b) = Text.trimSpace a ++ (gap ++ Mark.comma :: rest) := by
    rw [← hrest]
    exact htrim Mark.comma b rfl
  have hmarks : ∀ c, (Mark.comma :: rest).head? = some c → isMark c = true := by
    intro c hc
    cases hc
    rfl
  have hplaced : ∀ p, Token.scanFrom p (Mark.comma :: rest) =
      ⟨.mark, [Mark.comma], p⟩ :: Token.placed (p + 1) (Token.scan rest) := by
    intro p
    rw [← Token.scanFrom_eq_placed]
    rfl
  refine ⟨gap, 0 + (Text.trimSpace a).length, 0 + (Text.trimSpace a).length + gap.length, hgap, ?_⟩
  rw [hwhole, Token.scan, Token.scanFrom_append (Token.isMark_head?_append hgap hmarks),
    Token.scanFrom_append hmarks, hplaced]
  rfl

/-- The run over a list that goes on is the run over the rest with the list before it. -/
theorem run_append_comma {input : Input} {gap : Text} {p q : Nat}
    (hrun : State.Reaches input.config .start (Token.scan (Text.trimSpace a)) final)
    (hmode : final.mode = .regular) (houter : final.outer = []) (hdepth : final.frame.parenDepth = 0)
    (hregular : final.frame.allParts.any Part.isRegular = true) (hgap : ∀ c ∈ gap, Text.isSpace c = true) :
    State.start.run input 0 (Token.scan (Text.trimSpace a) ++
        (Token.scanFrom p gap ++ ⟨.mark, [Mark.comma], q⟩ :: Token.placed (q + 1) (Token.scan rest))) =
      (({} : State).run input 0 (Token.scan rest)).map (State.prepend final.level.selectors) := by
  have hspaces := Token.scanFrom_spaces p hgap
  have hcomma : Token.Proper ⟨.mark, [Mark.comma], q⟩ := Token.proper_mark q rfl
  have hhead : Token.continuesAfterSpace (Token.scanFrom p gap ++
      ⟨.mark, [Mark.comma], q⟩ :: Token.placed (q + 1) (Token.scan rest)).head? = false :=
    Token.continuesAfterSpace_spaces hspaces hcomma (.inl rfl)
  have hmove : State.Move input.config final ⟨.mark, [Mark.comma], q⟩ (Token.placed (q + 1) (Token.scan rest))
      { state := final.nextSelector } := .comma hmode rfl hdepth hregular
  have hnext : final.nextSelector = ({} : State).prepend final.level.selectors := by
    show State.mk _ _ _ = State.mk _ _ _
    simp [hmode, houter]
  rw [hrun.run_append (Token.trimmed_scan a) hhead, State.run_spaces hspaces hcomma rfl hmode hdepth,
    State.run_cons_of_step (State.step_eq_ok_iff.2 hmove), State.run_placed, hnext, State.run_prepend]

/-- What follows a comma is compiled on its own, and its selectors come after those before the comma. -/
theorem compile_append_comma
    (hrun : State.start.run ⟨Text.trimSpace a, config⟩ 0 (Token.scan (Text.trimSpace a)) = .ok final)
    (hdepth : final.frame.parenDepth = 0) (ha : compile config a = .ok list)
    (hrest : Text.trimSpace (Mark.comma :: b) = Mark.comma :: rest) :
    compile config (a ++ Mark.comma :: b) =
      (compileRest ⟨Text.trimSpace (a ++ Mark.comma :: b), config⟩ rest).map (list ++ ·) := by
  obtain ⟨hne, final', hrun', hmode, houter, hregular, rfl⟩ := compile_eq_ok_iff.1 ha
  cases hrun.symm.trans hrun'
  obtain ⟨gap, p, q, hgap, htokens⟩ := scan_append_comma hne hrest
  have hnil : Text.trimSpace (a ++ Mark.comma :: b) ≠ [] := by
    intro hnil
    have hspace := Text.trim_eq_nil_iff.1 hnil Mark.comma (by simp)
    cases hspace
  have hreaches : State.Reaches config .start (Token.scan (Text.trimSpace a)) final := State.reaches_of_run hrun
  unfold compile compileRest
  generalize Text.trimSpace (a ++ Mark.comma :: b) = text at htokens hnil ⊢
  have hwhole : State.start.run ⟨text, config⟩ 0 (Token.scan text) =
      (({} : State).run ⟨text, config⟩ 0 (Token.scan rest)).map (State.prepend final.level.selectors) := by
    rw [htokens]
    exact run_append_comma hreaches hmode houter hdepth hregular hgap
  dsimp only
  rw [if_neg (by simpa using hnil), hwhole]
  cases ({} : State).run ⟨text, config⟩ 0 (Token.scan rest) with
  | error fault => rfl
  | ok s => exact State.finish_prepend _ s

theorem compile_word_comma (hrest : Text.trimSpace (Mark.comma :: b) = Mark.comma :: rest) :
    compile config ('x' :: Mark.comma :: b) =
      (compileRest ⟨Text.trimSpace ('x' :: Mark.comma :: b), config⟩ rest).map ([[.regular ['x']]] ++ ·) := by
  have hrun : State.start.run ⟨['x'], config⟩ 0 (Token.scan ['x']) = .ok (State.start.write ['x']) := rfl
  have hword : compile config ['x'] = .ok [[.regular ['x']]] := rfl
  show compile config (['x'] ++ Mark.comma :: b) = _
  exact compile_append_comma hrun rfl hword hrest

/-- The selectors of a list are compiled independently: after every text that is compiled with no parenthesis of
plain text left open, a comma and more text add the same selectors, or fail with the same kind of fault. -/
theorem parse_append_comma (ha : parse config a = .ok list)
    (hrun : State.start.run ⟨Text.trimSpace a, config⟩ 0 (Token.scan (Text.trimSpace a)) = .ok final)
    (hdepth : final.frame.parenDepth = 0) (b : Text) :
    (parse config (a ++ Mark.comma :: b)).mapError Fault.kind =
      ((parse config ('x' :: Mark.comma :: b)).map fun others => list ++ others.tail).mapError Fault.kind := by
  obtain ⟨rest, hrest⟩ := Text.exists_trim_cons (p := Text.isSpace) (c := Mark.comma) rfl b
  rw [parse_eq_compile] at ha
  have hmap : ∀ x : Except Fault SelectorList,
      (x.map ([[.regular ['x']]] ++ ·)).map (fun others => list ++ others.tail) = x.map (list ++ ·) := by
    intro x
    cases x <;> rfl
  rw [parse_eq_compile, parse_eq_compile, compile_append_comma hrun hdepth ha hrest, compile_word_comma hrest, hmap]
  exact (alike_compileRest _ _).map _

theorem parse_append_comma_nested :
    ∃ final : State, parse .standard "p:has(q) ".toList =
        .ok [[.regular "p".toList, .relative "has".toList [[.regular "q".toList]]]] ∧
      State.start.run ⟨"p:has(q)".toList, .standard⟩ 0 (Token.scan "p:has(q)".toList) = .ok final ∧
      final.frame.parenDepth = 0 ∧
      (parse .standard ("p:has(q) ".toList ++ Mark.comma :: " :is(r)".toList)).mapError Fault.kind =
        ((parse .standard ('x' :: Mark.comma :: " :is(r)".toList)).map fun others =>
          [[.regular "p".toList, .relative "has".toList [[.regular "q".toList]]]] ++ others.tail).mapError
            Fault.kind := by
  have ha : parse .standard "p:has(q) ".toList =
      .ok [[.regular "p".toList, .relative "has".toList [[.regular "q".toList]]]] :=
    (parse_eq_compile _ _).trans (eq_ok_of_toOption (by decide +kernel))
  exact ⟨_, ha, rfl, rfl, parse_append_comma ha rfl rfl _⟩

end SelectorList

end CosmeticFilter
