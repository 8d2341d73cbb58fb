import CosmeticFilter.Selector.Parser
import CosmeticFilter.Proofs.Tokens

/-!
# What a step of the compiler can do

`Move config s t rest next` lists the ways in which reading the token `t` before `rest` leads from the
state `s` to `next`, with everything that the checks of the compiler have established on the way.
`step_eq_ok_iff` says that these are exactly the successful steps, so no later proof opens `step`.

`compile_induction` is the induction over a whole run: what holds at the start, with all tokens ahead,
and is kept by every move holds at the end, where the list that is returned can be read off the
state.
-/

namespace CosmeticFilter

theorem bind_eq_ok_iff {α β : Type} {x : Except Fault α} {f : α → Except Fault β} {b : β} :
    x.bind f = .ok b ↔ ∃ a, x = .ok a ∧ f a = .ok b := by
  cases x <;> simp [Except.bind]

theorem map_eq_ok_iff {α β : Type} {x : Except Fault α} {f : α → β} {b : β} :
    x.map f = .ok b ↔ ∃ a, x = .ok a ∧ f a = b := by
  cases x <;> simp [Except.map]

theorem map_eq_error_iff {α β : Type} {x : Except Fault α} {f : α → β} {fault : Fault} :
    x.map f = .error fault ↔ x = .error fault := by
  cases x <;> simp [Except.map]

/-- A map over what is computed last is one over the whole computation. -/
theorem bind_eq_map_bind {α β γ : Type} {x : Except Fault α} {f : α → Except Fault γ} {g : α → Except Fault β}
    {h : β → γ} (hf : ∀ a, f a = (g a).map h) : x.bind f = (x.bind g).map h := by
  cases x with
  | error fault => rfl
  | ok a => exact hf a

theorem map_bind {α β γ : Type} (x : Except Fault α) (f : α → β) (g : β → Except Fault γ) :
    (x.map f).bind g = x.bind fun a => g (f a) := by
  cases x <;> rfl

theorem eq_ok_of_toOption {α : Type} {x : Except Fault α} {a : α} (h : x.toOption = some a) : x = .ok a := by
  cases x with
  | error fault => cases h
  | ok b =>
    cases h
    rfl

/-- A member of two lists, one after the other, belongs to one of them. -/
theorem append_eq_split {α : Type} {a b before after : List α} {x : α} (h : a ++ b = before ++ x :: after) :
    (∃ more, a = before ++ x :: more ∧ after = more ++ b) ∨ ∃ more, b = more ++ x :: after ∧ before = a ++ more := by
  rcases List.append_eq_append_iff.1 h with ⟨more, hbefore, hb⟩ | ⟨more, ha, hafter⟩
  · exact .inr ⟨more, hb, hbefore⟩
  · cases more with
    | nil => exact .inr ⟨[], by simpa using hafter.symm, by simpa using ha.symm⟩
    | cons y more =>
      cases hafter
      exact .inl ⟨more, ha, rfl⟩

theorem singleton_eq_split {α : Type} {x y : α} {before after : List α} (h : [y] = before ++ x :: after) :
    before = [] ∧ x = y ∧ after = [] := by
  cases before with
  | nil => cases h; exact ⟨rfl, rfl, rfl⟩
  | cons z before => simp at h

/-! ### The checks -/

namespace Placement

theorem checkInsideHas_eq_ok_iff {name : Text} {openNames : List Text} :
    checkInsideHas name openNames = .ok () ↔
      (name ∈ PseudoClass.forbiddenInsideHas → ∀ outer ∈ openNames, outer ∉ PseudoClass.hasNames) := by
  rw [checkInsideHas]
  split
  · next h =>
    simp only [Bool.and_eq_true, List.any_eq_true, List.contains_eq_mem, decide_eq_true_eq] at h
    obtain ⟨hname, outer, hmem, hhas⟩ := h
    simpa using ⟨hname, outer, hmem, hhas⟩
  · next h => simpa using h

theorem checkHas_eq_ok_iff {name : Text} {insideRegular afterPseudoElement : Bool} :
    checkHas name insideRegular afterPseudoElement = .ok () ↔
      (name ∈ PseudoClass.hasNames → insideRegular = false ∧ afterPseudoElement = false) := by
  rw [checkHas]
  cases insideRegular <;> cases afterPseudoElement <;> simp

end Placement

namespace Selector

/-- A selector that ends needs a plain part. -/
theorem Frame.finish_bind_eq_ok_iff {α : Type} {selector : Text} {f : Frame} {g : Selector → Except Fault α} {a : α} :
    (f.finish selector).bind g = .ok a ↔ f.allParts.any Part.isRegular = true ∧ g f.allParts = .ok a := by
  rw [Frame.finish]
  split
  · next h => simp [h, Except.bind]
  · next h => simp [h, Except.bind]

theorem Frame.isEmpty_of_any_isRegular {f : Frame} (h : f.allParts.any Part.isRegular = true) :
    f.isEmpty = false := by
  by_contra hempty
  obtain ⟨hbuffer, hparts⟩ := Frame.isEmpty_iff.1 (by simpa using hempty)
  simp [Frame.allParts, hbuffer, hparts] at h

namespace State

theorem checkAfterRemove_eq_ok_iff {input : Input} {t : Token} {rest : List Token} {s : State} :
    s.checkAfterRemove input t rest = .ok () ↔
      s.frame.removed = false ∨ t.isOf Text.isSpace = true ∨ t.text = [Mark.comma] := by
  rw [checkAfterRemove, ← Token.spells_iff]
  split
  · next h => simpa [or_assoc] using h
  · next h =>
    have hno : ¬(s.frame.removed = false ∨ t.isOf Text.isSpace = true ∨ t.spells Mark.comma = true) := by
      simpa [or_assoc] using h
    split <;> simp [hno]

/-- After the marker of removal, no mark is read but white space and a comma. -/
theorem removed_eq_false_of_mark {s : State} {t : Token} {c : Char} (hmark : t.text = [c])
    (hspace : Text.isSpace c = false) (hcomma : c ≠ Mark.comma)
    (h : s.frame.removed = false ∨ t.isOf Text.isSpace = true ∨ t.text = [Mark.comma]) :
    s.frame.removed = false := by
  rcases h with hremoved | hblank | htext
  · exact hremoved
  · obtain ⟨d, hd, hblank⟩ := Token.isOf_iff.1 hblank
    rw [hmark, List.singleton_inj] at hd
    rw [← hd, hspace] at hblank
    cases hblank
  · rw [hmark, List.singleton_inj] at htext
    exact absurd htext hcomma

theorem checkRemove_eq_ok_iff {input : Input} {s : State} :
    s.checkRemove input = .ok () ↔
      s.outer = [] ∧ (Text.trimSpace s.frame.buffer = [] → s.frame.parts ≠ []) := by
  rw [checkRemove]
  split
  · next h => simp [h]
  · next h =>
    split
    · next hblank => simpa [h] using hblank
    · next hblank => simpa [h] using hblank

/-! ### The states after a token -/

end State

/-- The selectors of a list, with the one that is being collected. -/
def Level.selectors (level : Level) : SelectorList := level.finished ++ [level.frame.allParts]

theorem Level.selectors_ne_nil (level : Level) : level.selectors ≠ [] := List.concat_ne_nil _ _

namespace State

def nextSelector (s : State) : State := { s with level := { finished := s.level.selectors } }

/-- After the opening of the relative pseudo-class `name`. -/
def suspend (name : Text) (s : State) : State :=
  { s with
    level := {}
    outer := ⟨name, { s.level with frame := s.frame.anchor name }⟩ :: s.outer }

/-- After the argument that interrupts `enclosing`; `outer` are the lists that enclose that one. -/
def resume (enclosing : Suspended) (outer : List Suspended) (s : State) : State :=
  { s with
    level := { enclosing.level with
      frame := enclosing.level.frame.push (.relative enclosing.name s.level.selectors) }
    outer := outer }

/-- After the opening of the absolute pseudo-class `name`. -/
def openArgument (name : Text) (s : State) : State :=
  { s.withFrame (s.frame.anchor name) with mode := .argument { name } }

/-- After the argument of an absolute pseudo-class. -/
def endArgument (a : Argument) (s : State) : State :=
  { s.withFrame { s.frame.push (.absolute a.name a.text) with
      removed := s.frame.removed || a.name = PseudoClass.removeName } with
    mode := .regular }

section

variable (s : State) (name : Text) (enclosing : Suspended) (outer : List Suspended) (a : Argument)

@[simp] theorem frame_nextSelector : s.nextSelector.frame = {} := rfl
@[simp] theorem mode_nextSelector : s.nextSelector.mode = s.mode := rfl
@[simp] theorem outer_nextSelector : s.nextSelector.outer = s.outer := rfl

@[simp] theorem frame_suspend : (s.suspend name).frame = {} := rfl
@[simp] theorem mode_suspend : (s.suspend name).mode = s.mode := rfl
@[simp] theorem finished_suspend : (s.suspend name).level.finished = [] := rfl

@[simp] theorem frame_resume : (s.resume enclosing outer).frame =
    enclosing.level.frame.push (.relative enclosing.name s.level.selectors) := rfl
@[simp] theorem mode_resume : (s.resume enclosing outer).mode = s.mode := rfl
@[simp] theorem outer_resume : (s.resume enclosing outer).outer = outer := rfl

@[simp] theorem frame_openArgument : (s.openArgument name).frame = s.frame.anchor name := rfl
@[simp] theorem mode_openArgument : (s.openArgument name).mode = .argument { name } := rfl
@[simp] theorem outer_openArgument : (s.openArgument name).outer = s.outer := rfl

@[simp] theorem parts_endArgument :
    (s.endArgument a).frame.parts = s.frame.parts ++ [.absolute a.name a.text] := rfl
@[simp] theorem buffer_endArgument : (s.endArgument a).frame.buffer = s.frame.buffer := rfl
@[simp] theorem removed_endArgument : (s.endArgument a).frame.removed =
    (s.frame.removed || a.name = PseudoClass.removeName) := rfl
@[simp] theorem mode_endArgument : (s.endArgument a).mode = .regular := rfl
@[simp] theorem outer_endArgument : (s.endArgument a).outer = s.outer := rfl

end

/-! ### Moves -/

/-- The tokens after a colon open the argument of the extended pseudo-class `name`, which may stand
here. -/
structure Opens (s : State) (rest : List Token) (name : Text) (kind : PseudoClass.Kind) : Prop where
  named : extendedName? rest = some (name, kind)
  depth : s.frame.parenDepth = 0
  argument : opensArgument rest = true
  allowed : name ∈ PseudoClass.forbiddenInsideHas → ∀ outer ∈ s.openNames, outer ∉ PseudoClass.hasNames
  placed : name ∈ PseudoClass.hasNames → s.frame.afterPseudoElement = false

/-- The token is plain text in this state: nothing that ends a selector, and neither a colon nor white
space. -/
structure Ordinary (s : State) (t : Token) : Prop where
  notComma : t.text = [Mark.comma] → 0 < s.frame.parenDepth
  notClosing : t.text = [Mark.parenRight] → 0 < s.frame.parenDepth ∨ s.outer = []
  notColon : t.text ≠ [Mark.colon]
  notSpace : t.isOf Text.isSpace = false

/-- What reading the token `t` before `rest` can do. -/
inductive Move (config : Config) (s : State) (t : Token) (rest : List Token) : Step → Prop
  /-- A token of an attribute. -/
  | inAttribute {body : Text} {next : State} (mode : s.mode = .attribute body)
      (read : s.readAttribute body t = .ok next) : Move config s t rest { state := next }
  /-- A token of the argument of an absolute pseudo-class. -/
  | inArgument {a : Argument} {next : State} (mode : s.mode = .argument a)
      (read : ∀ input, s.readArgument input a t = .ok next) : Move config s t rest { state := next }
  /-- The comma that ends a selector. -/
  | comma (mode : s.mode = .regular) (mark : t.text = [Mark.comma]) (depth : s.frame.parenDepth = 0)
      (regular : s.frame.allParts.any Part.isRegular = true) :
      Move config s t rest { state := s.nextSelector }
  /-- The parenthesis that ends the argument of a relative pseudo-class. -/
  | close {enclosing : Suspended} {outer : List Suspended} (mode : s.mode = .regular)
      (mark : t.text = [Mark.parenRight]) (depth : s.frame.parenDepth = 0)
      (removed : s.frame.removed = false) (stack : s.outer = enclosing :: outer)
      (regular : s.frame.allParts.any Part.isRegular = true) :
      Move config s t rest { state := s.resume enclosing outer }
  | colon (mode : s.mode = .regular) (mark : t.text = [Mark.colon]) (removed : s.frame.removed = false)
      (plain : ∀ name kind, extendedName? rest = some (name, kind) →
        0 < s.frame.parenDepth ∧ name ∉ PseudoClass.hasNames) :
      Move config s t rest { state := s.copyColon rest }
  | openRelative {name : Text} (mode : s.mode = .regular) (mark : t.text = [Mark.colon])
      (removed : s.frame.removed = false) (opens : s.Opens rest name .relative)
      (limit : s.depth + 1 ≤ config.maxDepth) :
      Move config s t rest { state := s.suspend name, skip := 2 }
  | openAbsolute {name : Text} (mode : s.mode = .regular) (mark : t.text = [Mark.colon])
      (removed : s.frame.removed = false) (opens : s.Opens rest name .absolute)
      (remove : name = PseudoClass.removeName →
        s.outer = [] ∧ (Text.trimSpace s.frame.buffer = [] → s.frame.parts ≠ [])) :
      Move config s t rest { state := s.openArgument name, skip := 2 }
  | keepSpace (mode : s.mode = .regular) (space : t.isOf Text.isSpace = true)
      (kept : 0 < s.frame.parenDepth ∨
        s.frame.isEmpty = false ∧ Token.continuesAfterSpace rest.head? = true) :
      Move config s t rest { state := s.write t.text }
  | dropSpace (mode : s.mode = .regular) (space : t.isOf Text.isSpace = true)
      (depth : s.frame.parenDepth = 0)
      (dropped : s.frame.isEmpty = false → Token.continuesAfterSpace rest.head? = false) :
      Move config s t rest { state := s }
  /-- Any other token of plain text. -/
  | plain (mode : s.mode = .regular) (removed : s.frame.removed = false ∨ t.text = [Mark.comma])
      (ordinary : s.Ordinary t) :
      Move config s t rest { state := s.readPlain t }

/-! ### The moves are the successful steps -/

section

variable {input : Input} {s : State} {t : Token} {rest : List Token} {next : Step}

theorem openRelative_eq_ok_iff {name : Text} {next : State} :
    s.openRelative input name = .ok next ↔
      s.depth + 1 ≤ input.config.maxDepth ∧ next = s.suspend name := by
  rw [openRelative, suspend]
  split
  · next h => simp [Nat.not_le.2 h]
  · next h => simp [Nat.not_lt.1 h, eq_comm]

theorem openAbsolute_eq_ok_iff {name : Text} {next : State} :
    s.openAbsolute input name = .ok next ↔
      (name = PseudoClass.removeName →
        s.outer = [] ∧ (Text.trimSpace s.frame.buffer = [] → s.frame.parts ≠ [])) ∧
      next = s.openArgument name := by
  have hcheck : s.checkRemove input = .ok () ↔
      s.outer = [] ∧ (Text.trimSpace s.frame.buffer = [] → s.frame.parts ≠ []) := checkRemove_eq_ok_iff
  rw [openAbsolute, openArgument, ← hcheck]
  by_cases hname : name = PseudoClass.removeName
  · cases s.checkRemove input <;> simp [hname, bind, Except.bind, pure, Except.pure, eq_comm]
  · simp [hname, pure, Except.pure, eq_comm]

theorem readComma_eq_ok_iff {next : State} :
    s.readComma input = .ok next ↔ s.frame.allParts.any Part.isRegular = true ∧ next = s.nextSelector := by
  show (s.frame.finish input.selector).bind _ = _ ↔ _
  rw [Frame.finish_bind_eq_ok_iff]
  show _ ∧ Except.ok s.nextSelector = Except.ok next ↔ _
  rw [Except.ok.injEq, eq_comm (a := next)]

/-- The marker of removal has no argument, and every other absolute pseudo-class has one. -/
theorem closeArgument_eq_ok_iff {a : Argument} {next : State} : s.closeArgument input a = .ok next ↔
    (a.name = PseudoClass.removeName ↔ a.text = []) ∧ next = s.endArgument a := by
  rw [closeArgument]
  by_cases hname : a.name = PseudoClass.removeName
  · cases htext : a.text with
    | nil => simp [hname, htext, endArgument, eq_comm]
    | cons c text => simp [hname]
  · cases htext : a.text with
    | nil => simp [hname]
    | cons c text => simp [hname, htext, endArgument, Frame.push, eq_comm]

/-- The check for an empty argument is subsumed by that for a plain part. -/
theorem closeRelative_eq_ok_iff {enclosing : Suspended} {outer : List Suspended} {next : State} :
    s.closeRelative input enclosing outer = .ok next ↔
      s.frame.allParts.any Part.isRegular = true ∧ next = s.resume enclosing outer := by
  rw [closeRelative]
  split
  · next hempty =>
    refine ⟨nofun, fun h => ?_⟩
    rw [Frame.isEmpty_of_any_isRegular h.1] at hempty
    cases hempty
  · show (s.frame.finish input.selector).bind _ = _ ↔ _
    rw [Frame.finish_bind_eq_ok_iff]
    show _ ∧ Except.ok (s.resume enclosing outer) = Except.ok next ↔ _
    rw [Except.ok.injEq, eq_comm (a := next)]

theorem move_of_readColon (hmode : s.mode = .regular) (hmark : t.text = [Mark.colon])
    (hremoved : s.frame.removed = false) (h : s.readColon input rest = .ok next) :
    Move input.config s t rest next := by
  rw [readColon] at h
  split at h
  · next hnamed =>
    cases h
    exact .colon hmode hmark hremoved (by simp [hnamed])
  · next name kind hnamed =>
    split at h
    · next hdepth =>
      obtain ⟨⟨⟩, hhas, h⟩ := bind_eq_ok_iff.1 h
      cases h
      refine .colon hmode hmark hremoved fun name' kind' hnamed' => ⟨hdepth, fun hmem => ?_⟩
      rw [hnamed] at hnamed'
      cases hnamed'
      simpa using (Placement.checkHas_eq_ok_iff.1 hhas hmem).1
    · next hdepth =>
      obtain ⟨⟨⟩, hinside, h⟩ := bind_eq_ok_iff.1 h
      obtain ⟨⟨⟩, hhas, h⟩ := bind_eq_ok_iff.1 h
      split at h
      · next hopens =>
        have hopen : s.Opens rest name kind :=
          ⟨hnamed, by omega, hopens, Placement.checkInsideHas_eq_ok_iff.1 hinside,
            fun hmem => (Placement.checkHas_eq_ok_iff.1 hhas hmem).2⟩
        obtain ⟨state, hstate, h⟩ := bind_eq_ok_iff.1 h
        cases h
        cases kind with
        | relative =>
          obtain ⟨hlimit, rfl⟩ := openRelative_eq_ok_iff.1 hstate
          exact .openRelative hmode hmark hremoved hopen hlimit
        | absolute =>
          obtain ⟨hremove, rfl⟩ := openAbsolute_eq_ok_iff.1 hstate
          exact .openAbsolute hmode hmark hremoved hopen hremove
      · cases h

theorem Opens.readColon_eq {name : Text} {kind : PseudoClass.Kind} {state : State}
    (h : s.Opens rest name kind) (hopen : s.openExtended input name kind = .ok state) :
    s.readColon input rest = .ok { state := state, skip := 2 } := by
  have hinside := Placement.checkInsideHas_eq_ok_iff.2 h.allowed
  have hhas : Placement.checkHas name false s.frame.afterPseudoElement = .ok () :=
    Placement.checkHas_eq_ok_iff.2 fun hmem => ⟨rfl, h.placed hmem⟩
  simp [readColon, h.named, h.depth, hinside, hhas, h.argument, hopen, bind, Except.bind, pure, Except.pure]

theorem readColon_of_plain (hplain : ∀ name kind, extendedName? rest = some (name, kind) →
      0 < s.frame.parenDepth ∧ name ∉ PseudoClass.hasNames) :
    s.readColon input rest = .ok { state := s.copyColon rest } := by
  rw [readColon]
  split
  · rfl
  · next name kind hnamed =>
    obtain ⟨hdepth, hmem⟩ := hplain name kind hnamed
    have hhas : Placement.checkHas name true s.frame.afterPseudoElement = .ok () :=
      Placement.checkHas_eq_ok_iff.2 fun h => absurd h hmem
    simp [hdepth, hhas, bind, Except.bind, pure, Except.pure]

theorem move_of_readEnd? {end_ : Except Fault State} {state : State} (hmode : s.mode = .regular)
    (hcheck : s.frame.removed = false ∨ t.isOf Text.isSpace = true ∨ t.text = [Mark.comma])
    (hend : s.readEnd? input t = some end_) (h : end_ = .ok state) :
    Move input.config s t rest { state := state } := by
  subst h
  rw [readEnd?] at hend
  split at hend
  · cases hend
  · next hdepth =>
    split at hend
    · next hcomma =>
      obtain ⟨hregular, rfl⟩ := readComma_eq_ok_iff.1 (Option.some.inj hend)
      exact .comma hmode (Token.spells_iff.1 hcomma) (by omega) hregular
    · next hcomma =>
      split at hend
      · next hparen =>
        split at hend
        · next enclosing outer hstack =>
          obtain ⟨hregular, rfl⟩ := closeRelative_eq_ok_iff.1 (Option.some.inj hend)
          have hparen := Token.spells_iff.1 hparen
          have hremoved := removed_eq_false_of_mark hparen rfl (by decide) hcheck
          exact .close hmode hparen (by omega) hremoved hstack hregular
        · cases hend
      · cases hend

theorem readEnd?_eq_none_iff : s.readEnd? input t = none ↔
    (t.text = [Mark.comma] → 0 < s.frame.parenDepth) ∧
      (t.text = [Mark.parenRight] → 0 < s.frame.parenDepth ∨ s.outer = []) := by
  rw [readEnd?]
  by_cases hdepth : 0 < s.frame.parenDepth
  · simp [hdepth]
  · by_cases hcomma : t.text = [Mark.comma]
    · simp [hdepth, hcomma, Token.spells]
    · by_cases hparen : t.text = [Mark.parenRight]
      · have hne : Mark.parenRight ≠ Mark.comma := by decide
        cases s.outer <;> simp [hdepth, hparen, hne, Token.spells]
      · simp [hdepth, hcomma, hparen, Token.spells]

theorem move_of_readSpace (hmode : s.mode = .regular) (hspace : t.isOf Text.isSpace = true) :
    Move input.config s t rest { state := s.readSpace t rest } := by
  rw [readSpace]
  split
  · next hdepth => exact .keepSpace hmode hspace (.inl hdepth)
  · next hdepth =>
    split
    · next hempty => exact .dropSpace hmode hspace (by omega) (by simp [hempty])
    · next hempty =>
      split
      · next hcontinues => exact .keepSpace hmode hspace (.inr ⟨by simpa using hempty, hcontinues⟩)
      · next hcontinues => exact .dropSpace hmode hspace (by omega) fun _ => by simpa using hcontinues

theorem move_of_readRegular (hmode : s.mode = .regular) (h : s.readRegular input t rest = .ok next) :
    Move input.config s t rest next := by
  obtain ⟨⟨⟩, hcheck, h⟩ := bind_eq_ok_iff.1 h
  rw [checkAfterRemove_eq_ok_iff] at hcheck
  split at h
  · next end_ hend =>
    obtain ⟨state, hstate, h⟩ := bind_eq_ok_iff.1 h
    cases h
    exact move_of_readEnd? hmode hcheck hend hstate
  · next hend =>
    obtain ⟨hcomma, hparen⟩ := readEnd?_eq_none_iff.1 hend
    split at h
    · next hcolon =>
      have hcolon := Token.spells_iff.1 hcolon
      have hremoved := removed_eq_false_of_mark hcolon rfl (by decide) hcheck
      exact move_of_readColon hmode hcolon hremoved h
    · next hcolon =>
      split at h
      · next hspace =>
        cases h
        exact move_of_readSpace hmode hspace
      · next hspace =>
        cases h
        have hspace : t.isOf Text.isSpace = false := by simpa using hspace
        refine .plain hmode ?_ ⟨hcomma, hparen, by simpa [Token.spells_iff] using hcolon, hspace⟩
        simpa [hspace] using hcheck

/-- Success of a token of an argument does not depend on the text around the argument. -/
theorem readArgument_eq_ok {input' : Input} {a : Argument} {next : State}
    (h : s.readArgument input a t = .ok next) : s.readArgument input' a t = .ok next := by
  rw [readArgument] at h ⊢
  split at h
  · next hregexp => simpa [hregexp] using h
  · next hregexp =>
    split at h
    · next hslash => simpa [hregexp, hslash] using h
    · next hslash =>
      split at h
      · next hleft => simpa [hregexp, hslash, hleft] using h
      · next hleft =>
        split at h
        · next hright =>
          split at h
          · next hdepth =>
            simp only [hregexp, hslash, hleft, hright, hdepth]
            exact closeArgument_eq_ok_iff.2 (closeArgument_eq_ok_iff.1 h)
          · next hdepth => simpa [hregexp, hslash, hleft, hright, hdepth] using h
        · next hright => simpa [hregexp, hslash, hleft, hright] using h

theorem move_of_step (h : s.step input t rest = .ok next) : Move input.config s t rest next := by
  rw [step] at h
  split at h
  · next body hmode =>
    obtain ⟨state, hstate, rfl⟩ := map_eq_ok_iff.1 h
    exact .inAttribute hmode hstate
  · next a hmode =>
    obtain ⟨state, hstate, rfl⟩ := map_eq_ok_iff.1 h
    exact .inArgument hmode fun _ => readArgument_eq_ok hstate
  · next hmode => exact move_of_readRegular hmode h

theorem readRegular_of_end {state : State} (hcheck : s.checkAfterRemove input t rest = .ok ())
    (hend : s.readEnd? input t = some (.ok state)) :
    s.readRegular input t rest = .ok { state := state } := by
  simp [readRegular, hcheck, hend, bind, Except.bind, pure, Except.pure]

theorem readRegular_of_colon (hremoved : s.frame.removed = false) (hmark : t.text = [Mark.colon]) :
    s.readRegular input t rest = s.readColon input rest := by
  have hcheck : s.checkAfterRemove input t rest = .ok () := checkAfterRemove_eq_ok_iff.2 (.inl hremoved)
  have hend : s.readEnd? input t = none := by
    rw [readEnd?_eq_none_iff, hmark]
    exact ⟨nofun, nofun⟩
  simp [readRegular, hcheck, hend, Token.spells_iff.2 hmark, bind, Except.bind]

theorem readRegular_of_space (hspace : t.isOf Text.isSpace = true) :
    s.readRegular input t rest = .ok { state := s.readSpace t rest } := by
  have hcheck : s.checkAfterRemove input t rest = .ok () :=
    checkAfterRemove_eq_ok_iff.2 (.inr (.inl hspace))
  have hne : ∀ d, Text.isSpace d = false → t.text ≠ [d] := fun _ => Token.text_ne_of_isSpace hspace
  have hend : s.readEnd? input t = none := by
    rw [readEnd?_eq_none_iff]
    exact ⟨fun h => absurd h (hne _ rfl), fun h => absurd h (hne _ rfl)⟩
  have hcolon : t.spells Mark.colon = false := by
    simpa [Token.spells] using hne Mark.colon rfl
  simp [readRegular, hcheck, hend, hcolon, hspace, bind, Except.bind, pure, Except.pure]

theorem readRegular_of_ordinary (hremoved : s.frame.removed = false ∨ t.text = [Mark.comma])
    (h : s.Ordinary t) : s.readRegular input t rest = .ok { state := s.readPlain t } := by
  have hcheck : s.checkAfterRemove input t rest = .ok () :=
    checkAfterRemove_eq_ok_iff.2 (hremoved.imp_right .inr)
  have hend : s.readEnd? input t = none := readEnd?_eq_none_iff.2 ⟨h.notComma, h.notClosing⟩
  have hcolon : t.spells Mark.colon = false := by
    simpa [Token.spells] using h.notColon
  simp [readRegular, hcheck, hend, hcolon, h.notSpace, bind, Except.bind, pure, Except.pure]

theorem step_regular (hmode : s.mode = .regular) :
    s.step input t rest = s.readRegular input t rest := by
  rw [step, hmode]

theorem Move.step_eq (h : Move input.config s t rest next) : s.step input t rest = .ok next := by
  cases h with
  | inAttribute mode read => simp [step, mode, read, Except.map]
  | inArgument mode read => simp [step, mode, read, Except.map]
  | comma mode mark depth regular =>
    rw [step_regular mode]
    refine readRegular_of_end (checkAfterRemove_eq_ok_iff.2 (.inr (.inr mark))) ?_
    have hcomma : s.readComma input = .ok s.nextSelector := readComma_eq_ok_iff.2 ⟨regular, rfl⟩
    simp [readEnd?, depth, mark, Token.spells, hcomma]
  | @close enclosing outer mode mark depth removed stack regular =>
    rw [step_regular mode]
    refine readRegular_of_end (checkAfterRemove_eq_ok_iff.2 (.inl removed)) ?_
    have hclose : s.closeRelative input enclosing outer = .ok (s.resume enclosing outer) :=
      closeRelative_eq_ok_iff.2 ⟨regular, rfl⟩
    have hne : Mark.parenRight ≠ Mark.comma := by decide
    simp [readEnd?, depth, mark, hne, stack, Token.spells, hclose]
  | colon mode mark removed plain =>
    rw [step_regular mode, readRegular_of_colon removed mark, readColon_of_plain plain]
  | openRelative mode mark removed opens limit =>
    rw [step_regular mode, readRegular_of_colon removed mark]
    rw [opens.readColon_eq (openRelative_eq_ok_iff.2 ⟨limit, rfl⟩)]
  | openAbsolute mode mark removed opens remove =>
    rw [step_regular mode, readRegular_of_colon removed mark]
    rw [opens.readColon_eq (openAbsolute_eq_ok_iff.2 ⟨remove, rfl⟩)]
  | keepSpace mode space kept =>
    rw [step_regular mode, readRegular_of_space space, readSpace]
    rcases kept with hdepth | ⟨hempty, hcontinues⟩
    · rw [if_pos hdepth]
    · simp [hempty, hcontinues]
  | dropSpace mode space depth dropped =>
    rw [step_regular mode, readRegular_of_space space, readSpace, depth]
    cases hempty : s.frame.isEmpty with
    | true => simp
    | false => simp [dropped hempty]
  | plain mode removed ordinary =>
    rw [step_regular mode]
    exact readRegular_of_ordinary removed ordinary

theorem step_eq_ok_iff : s.step input t rest = .ok next ↔ Move input.config s t rest next :=
  ⟨move_of_step, Move.step_eq⟩

end

/-! ### Reading single tokens -/

section

variable {s : State} {t : Token}

/-- A token of an attribute is written; a bracket may close the attribute. -/
theorem readAttribute_cases {body : Text} {next : State} (h : s.readAttribute body t = .ok next) :
    (t.text = [Mark.squareRight] → Attribute.closes body = .ok false) ∧
        next = { s.write t.text with mode := .attribute (body ++ t.text) } ∨
      t.text = [Mark.squareRight] ∧ Attribute.closes body = .ok true ∧
        next = { s.write t.text with mode := .regular } := by
  rw [readAttribute] at h
  split at h
  · next hmark =>
    obtain ⟨closed, hclosed, h⟩ := bind_eq_ok_iff.1 h
    cases h
    cases closed with
    | false => exact .inl ⟨fun _ => hclosed, rfl⟩
    | true => exact .inr ⟨Token.spells_iff.1 hmark, hclosed, rfl⟩
  · next hmark =>
    cases h
    exact .inl ⟨fun h => absurd (Token.spells_iff.2 h) hmark, rfl⟩

/-- A token that does not close the attribute is written. -/
theorem readAttribute_eq_ok {body : Text} (h : t.text = [Mark.squareRight] → Attribute.closes body = .ok false) :
    s.readAttribute body t = .ok { s.write t.text with mode := .attribute (body ++ t.text) } := by
  rw [readAttribute]
  split
  · next hmark =>
    rw [h (Token.spells_iff.1 hmark)]
    rfl
  · rfl

/-- A token of an argument is kept in it, or it is the parenthesis that ends the argument. -/
theorem readArgument_cases {input : Input} {a : Argument} {next : State}
    (h : s.readArgument input a t = .ok next) :
    (∃ a' : Argument, a'.name = a.name ∧ a'.text = a.text ++ t.text ∧
        next = { s with mode := .argument a' }) ∨
      t.text = [Mark.parenRight] ∧ (a.name = PseudoClass.removeName ↔ a.text = []) ∧
        next = s.endArgument a := by
  have hkeep : ∀ b : Argument, b.name = a.name → b.text = a.text → ∃ a' : Argument, a'.name = a.name ∧
      a'.text = a.text ++ t.text ∧
      ({ s with mode := .argument { b with text := b.text ++ t.text } } : State) =
        { s with mode := .argument a' } :=
    fun b hname htext => ⟨{ b with text := b.text ++ t.text }, hname, by rw [← htext], rfl⟩
  rw [readArgument] at h
  split at h
  · cases h
    exact .inl (hkeep _ rfl rfl)
  · split at h
    · obtain ⟨opened, -, rfl⟩ := map_eq_ok_iff.1 h
      exact .inl (hkeep _ rfl rfl)
    · split at h
      · cases h
        exact .inl (hkeep _ rfl rfl)
      · split at h
        · next hright =>
          split at h
          · exact .inr ⟨Token.spells_iff.1 hright, closeArgument_eq_ok_iff.1 h⟩
          · cases h
            exact .inl (hkeep _ rfl rfl)
        · cases h
          exact .inl (hkeep _ rfl rfl)

/-- A token of plain text is written, and a bracket or a parenthesis counts. -/
theorem readPlain_cases (s : State) (t : Token) :
    t.text = [Mark.squareLeft] ∧ s.frame.buffer.getLast? ≠ some Mark.backslash ∧
        s.readPlain t = { s.write t.text with mode := .attribute [] } ∨
      t.text = [Mark.parenLeft] ∧
        s.readPlain t =
          s.withFrame { s.frame.write t.text with parenDepth := s.frame.parenDepth + 1 } ∨
      t.text = [Mark.parenRight] ∧
        s.readPlain t =
          s.withFrame { s.frame.write t.text with parenDepth := s.frame.parenDepth - 1 } ∨
      (t.text = [Mark.squareLeft] → s.frame.buffer.getLast? = some Mark.backslash) ∧
        t.text ≠ [Mark.parenLeft] ∧ t.text ≠ [Mark.parenRight] ∧ s.readPlain t = s.write t.text := by
  rw [readPlain]
  split
  · next h =>
    refine .inl ?_
    simp only [Attribute.opens, Bool.and_eq_true, decide_eq_true_eq] at h
    exact ⟨h.1, by rintro hlast; simp [hlast] at h, rfl⟩
  · next h =>
    have hbracket : t.text = [Mark.squareLeft] → s.frame.buffer.getLast? = some Mark.backslash := by
      simpa [Attribute.opens] using h
    split
    · next hleft => exact .inr (.inl ⟨Token.spells_iff.1 hleft, rfl⟩)
    · next hleft =>
      split
      · next hright => exact .inr (.inr (.inl ⟨Token.spells_iff.1 hright, rfl⟩))
      · next hright =>
        refine .inr (.inr (.inr ⟨hbracket, ?_, ?_, rfl⟩))
        · simpa [Token.spells_iff] using hleft
        · simpa [Token.spells_iff] using hright

/-- Plain text changes nothing but the text, the open parentheses and the mode. -/
theorem readPlain_eq (s : State) (t : Token) : ∃ depth mode, (∀ a, mode = .argument a → s.mode = mode) ∧
    s.readPlain t = { s.withFrame { s.frame.write t.text with parenDepth := depth } with mode := mode } := by
  rcases readPlain_cases s t with ⟨-, -, heq⟩ | ⟨-, heq⟩ | ⟨-, heq⟩ | ⟨-, -, -, heq⟩
  · exact ⟨s.frame.parenDepth, .attribute [], nofun, heq⟩
  · exact ⟨s.frame.parenDepth + 1, s.mode, fun _ _ => rfl, heq⟩
  · exact ⟨s.frame.parenDepth - 1, s.mode, fun _ _ => rfl, heq⟩
  · exact ⟨s.frame.parenDepth, s.mode, fun _ _ => rfl, heq⟩

/-- What a copied colon adds to a text: the mark of any element comes first where the selector is empty. -/
def colonText (s : State) : Text := (if s.frame.isEmpty then PseudoClass.anyElement else []) ++ [Mark.colon]

theorem frame_copyColon (rest : List Token) (s : State) :
    (s.copyColon rest).frame = { s.frame with
      buffer := s.frame.buffer ++ s.colonText
      afterPseudoElement := s.frame.afterPseudoElement || startsWithColon rest } := by
  rw [copyColon, colonText]
  cases s.frame.isEmpty <;> simp [Frame.write]

@[simp] theorem mode_copyColon (rest : List Token) (s : State) : (s.copyColon rest).mode = s.mode := rfl

theorem getLast?_colonText (s : State) : s.colonText.getLast? = some Mark.colon := List.getLast?_concat

theorem colonText_ne_nil (s : State) : s.colonText ≠ [] := List.concat_ne_nil _ _

/-- The two tokens after the colon of an extended pseudo-class. -/
theorem Opens.tokens {rest : List Token} {name : Text} {kind : PseudoClass.Kind}
    (h : s.Opens rest name kind) :
    ∃ word paren more, rest = word :: paren :: more ∧ word.isWord = true ∧ Text.lower word.text = name ∧
      PseudoClass.kind? name = some kind ∧ paren.text = [Mark.parenLeft] := by
  have hnamed := h.named
  have hargument := h.argument
  match rest with
  | [] => cases hargument
  | [_] => cases hargument
  | word :: paren :: more =>
    rw [extendedName?] at hnamed
    split at hnamed
    · next hword =>
      obtain ⟨found, hkind, heq⟩ := Option.map_eq_some_iff.1 hnamed
      cases heq
      exact ⟨word, paren, more, rfl, hword, rfl, hkind, Token.spells_iff.1 hargument⟩
    · cases hnamed

end

/-! ### What becomes of the parts -/

/-- What a move does to the parts that are complete. Most moves change only the text after them. -/
inductive Growth (config : Config) (s : State) (t : Token) : State → Prop
  | text {next : State} (outer : next.outer = s.outer) (finished : next.level.finished = s.level.finished)
      (parts : next.frame.parts = s.frame.parts) (input : next.frame.atInputStart = s.frame.atInputStart)
      (removed : next.frame.removed = s.frame.removed)
      (mode : ∀ a, next.mode = .argument a → ∃ b, s.mode = .argument b ∧ b.name = a.name) :
      Growth config s t next
  | absolute {a : Argument} (mode : s.mode = .argument a)
      (argument : a.name = PseudoClass.removeName ↔ a.text = []) :
      Growth config s t (s.endArgument a)
  | comma (mode : s.mode = .regular) (mark : t.text = [Mark.comma]) (depth : s.frame.parenDepth = 0)
      (regular : s.frame.allParts.any Part.isRegular = true) :
      Growth config s t s.nextSelector
  | close {enclosing : Suspended} {outer : List Suspended} (mode : s.mode = .regular)
      (mark : t.text = [Mark.parenRight]) (depth : s.frame.parenDepth = 0)
      (removed : s.frame.removed = false) (stack : s.outer = enclosing :: outer)
      (regular : s.frame.allParts.any Part.isRegular = true) :
      Growth config s t (s.resume enclosing outer)
  | openRelative {name : Text} {rest : List Token} (mode : s.mode = .regular)
      (removed : s.frame.removed = false) (opens : s.Opens rest name .relative)
      (limit : s.depth + 1 ≤ config.maxDepth) :
      Growth config s t (s.suspend name)
  | openAbsolute {name : Text} {rest : List Token} (mode : s.mode = .regular)
      (removed : s.frame.removed = false) (opens : s.Opens rest name .absolute)
      (remove : name = PseudoClass.removeName →
        s.outer = [] ∧ (Text.trimSpace s.frame.buffer = [] → s.frame.parts ≠ [])) :
      Growth config s t (s.openArgument name)

theorem Move.growth {config : Config} {s : State} {t : Token} {rest : List Token} {next : Step}
    (h : Move config s t rest next) : Growth config s t next.state := by
  cases h with
  | inAttribute mode read =>
    rcases readAttribute_cases read with ⟨-, rfl⟩ | ⟨-, -, rfl⟩
    · exact .text rfl rfl rfl rfl rfl nofun
    · exact .text rfl rfl rfl rfl rfl nofun
  | inArgument mode read =>
    rcases readArgument_cases (read ⟨[], config⟩) with ⟨a', hname, -, rfl⟩ | ⟨-, hargument, rfl⟩
    · refine .text rfl rfl rfl rfl rfl fun b hb => ⟨_, mode, ?_⟩
      cases hb
      exact hname.symm
    · exact .absolute mode hargument
  | comma mode mark depth regular => exact .comma mode mark depth regular
  | close mode mark depth removed stack regular => exact .close mode mark depth removed stack regular
  | colon mode mark removed plain =>
    have hframe := frame_copyColon rest s
    exact .text rfl rfl (by rw [hframe]) (by rw [hframe]) (by rw [hframe]) (by simp [mode])
  | openRelative mode mark removed opens limit => exact .openRelative mode removed opens limit
  | openAbsolute mode mark removed opens remove => exact .openAbsolute mode removed opens remove
  | keepSpace mode space kept => exact .text rfl rfl rfl rfl rfl (by simp [mode])
  | dropSpace mode space depth dropped => exact .text rfl rfl rfl rfl rfl (by simp [mode])
  | plain mode removed ordinary =>
    obtain ⟨depth, mode', hmode', heq⟩ := readPlain_eq s t
    rw [heq]
    exact .text rfl rfl rfl rfl rfl fun a ha => absurd (hmode' a ha) (by simp [mode, show mode' = _ from ha])

/-! ### Runs -/

theorem run_cons {input : Input} (s : State) (t : Token) (rest : List Token) : s.run input 0 (t :: rest) =
    (s.step input t rest).bind fun next => next.state.run input next.skip rest := by
  rw [run]
  cases s.step input t rest <;> rfl

theorem run_cons_of_step {input : Input} {s : State} {t : Token} {rest : List Token} {next : Step}
    (h : s.step input t rest = .ok next) :
    s.run input 0 (t :: rest) = next.state.run input next.skip rest := by
  rw [run_cons, h]
  rfl

theorem run_eq_drop (input : Input) (skip : Nat) (s : State) (tokens : List Token) :
    s.run input skip tokens = s.run input 0 (tokens.drop skip) := by
  induction tokens generalizing skip with
  | nil => cases skip <;> simp [run]
  | cons t rest ih =>
    cases skip with
    | zero => rfl
    | succ skip => rw [run, ih, List.drop_succ_cons]

/-- What every move keeps, a run keeps. The tokens that are ahead are part of what is kept. -/
theorem run_induction {input : Input} {P : State → List Token → Prop}
    (hmove : ∀ s t rest next, P s (t :: rest) → Move input.config s t rest next →
      P next.state (rest.drop next.skip))
    {s final : State} {skip : Nat} {tokens : List Token} (h : s.run input skip tokens = .ok final)
    (hP : P s (tokens.drop skip)) : P final [] := by
  induction tokens generalizing s skip with
  | nil =>
    rw [run] at h
    cases h
    simpa using hP
  | cons t rest ih =>
    cases skip with
    | succ skip =>
      rw [run] at h
      exact ih h hP
    | zero =>
      rw [run] at h
      split at h
      · cases h
      · next next hstep => exact ih h (hmove s t rest next hP (step_eq_ok_iff.1 hstep))

end State

end Selector

/-! ### Compiling -/

namespace Selector.State

theorem finish_eq_ok_iff {input : Input} {s : State} {list : SelectorList} :
    s.finish input = .ok list ↔ s.mode = .regular ∧ s.outer = [] ∧
      s.frame.allParts.any Part.isRegular = true ∧ list = s.level.selectors := by
  rw [finish.eq_def]
  split
  · next hmode => split <;> simp [hmode]
  · next hstack _ => simp [hstack]
  · next hmode _ => simp [hmode]
  · next hmode hstack =>
    show (s.frame.finish input.selector).bind _ = _ ↔ _
    simp only [Frame.finish_bind_eq_ok_iff, hmode, hstack, true_and, pure, Except.pure, Except.ok.injEq]
    rw [eq_comm (a := list)]
    rfl

end Selector.State

namespace SelectorList

open Selector

/-- A list is compiled by a run over the tokens of the text that ends in plain text with no argument
open. -/
theorem compile_eq_ok_iff {config : Config} {text : Text} {list : SelectorList} :
    compile config text = .ok list ↔ Text.trimSpace text ≠ [] ∧ ∃ final : State,
      State.start.run ⟨Text.trimSpace text, config⟩ 0 (Token.scan (Text.trimSpace text)) = .ok final ∧
      final.mode = .regular ∧ final.outer = [] ∧ final.frame.allParts.any Part.isRegular = true ∧
      list = final.level.selectors := by
  rw [compile]
  by_cases hempty : Text.trimSpace text = []
  · simp [hempty]
  · have hempty' : (Text.trimSpace text).isEmpty = false := by simpa using hempty
    simp only [hempty', Bool.false_eq_true, if_false, bind_eq_ok_iff, State.finish_eq_ok_iff,
      ne_eq, hempty, not_false_eq_true, true_and]

/-- A run over all tokens leaves it to the end of the input what becomes of the text. -/
theorem compile_of_run {config : Config} {text : Text} {final : State} (hne : Text.trimSpace text ≠ [])
    (hrun : State.start.run ⟨Text.trimSpace text, config⟩ 0 (Token.scan (Text.trimSpace text)) = .ok final) :
    compile config text = final.finish ⟨Text.trimSpace text, config⟩ := by
  have hempty : (Text.trimSpace text).isEmpty = false := by simpa using hne
  simp only [compile, hempty, Bool.false_eq_true, if_false, hrun, Except.bind]

/-- What holds before the first token and is kept by every move holds after the last one. -/
theorem compile_induction {config : Config} {text : Text} {list : SelectorList}
    {P : State → List Token → Prop} (h : compile config text = .ok list)
    (hstart : P State.start (Token.scan (Text.trimSpace text)))
    (hmove : ∀ s t rest next, P s (t :: rest) → State.Move config s t rest next →
      P next.state (rest.drop next.skip)) :
    ∃ final : State, P final [] ∧ final.mode = .regular ∧ final.outer = [] ∧
      final.frame.allParts.any Part.isRegular = true ∧
      list = final.level.selectors := by
  obtain ⟨-, final, hrun, hfinal⟩ := compile_eq_ok_iff.1 h
  exact ⟨final, State.run_induction hmove hrun hstart, hfinal⟩

theorem compile_of_parse {config : Config} {text : Text} {list : SelectorList}
    (h : parse config text = .ok list) : compile config text = .ok list := by
  obtain ⟨compiled, hcompiled, h⟩ := bind_eq_ok_iff.1 h
  obtain ⟨-, -, rfl⟩ := map_eq_ok_iff.1 h
  exact hcompiled

end SelectorList

end CosmeticFilter
