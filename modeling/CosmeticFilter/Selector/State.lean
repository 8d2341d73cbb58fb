import CosmeticFilter.Fault
import CosmeticFilter.Selector.Basic
import CosmeticFilter.Selector.Mark
import CosmeticFilter.Selector.PseudoClass

/-!
# States of the selector compiler

The compiler reads tokens from left to right. Its state holds the selector that is being collected,
the selectors of the same list that are complete, and, for every argument of a relative pseudo-class
that is open, the list that the argument interrupts.
-/

namespace CosmeticFilter.Selector

/-! ## The selector that is being collected -/

structure Frame where
  /-- Whether it is the first selector of the whole input, where implicit anchors apply. -/
  atInputStart : Bool := false
  parts : Selector := []
  /-- The plain text after them. -/
  buffer : Text := []
  parenDepth : Nat := 0
  afterPseudoElement : Bool := false
  removed : Bool := false
  deriving DecidableEq

namespace Frame

def isEmpty (f : Frame) : Bool := f.buffer.isEmpty && f.parts.isEmpty

def write (text : Text) (f : Frame) : Frame := { f with buffer := f.buffer ++ text }

def push (part : Part) (f : Frame) : Frame := { f with parts := f.parts ++ [part] }

/-- The plain part that the pseudo-class `name` applies to. Where the text does not end in a
compound selector, any element stands for it; at the start of the input it is an element below the
root for the classes that could match the root, and the body for a path expression. -/
def anchorText (name : Text) (f : Frame) : Text :=
  let atStart := f.atInputStart && f.parts.isEmpty
  if atStart && (f.buffer = [] || f.buffer = PseudoClass.anyElement)
      && PseudoClass.rootMatching.contains name then PseudoClass.belowRoot
  else if atStart && f.buffer.isEmpty && name = PseudoClass.xpathName then PseudoClass.pathRoot
  else
    match f.buffer.getLast? with
    | none => PseudoClass.anyElement
    | some c =>
      if Text.isSpace c || Mark.isCombinator c then f.buffer ++ PseudoClass.anyElement else f.buffer

/-- The frame with its plain text complete, so that the pseudo-class `name` can follow. A
pseudo-class directly after another one applies to the plain part before both. -/
def anchor (name : Text) (f : Frame) : Frame :=
  if f.buffer.isEmpty && !f.parts.isEmpty then f
  else { f with parts := f.parts ++ [.regular (f.anchorText name)], buffer := [] }

section

variable (f : Frame) (text name : Text) (part : Part)

@[simp] theorem parts_write : (f.write text).parts = f.parts := rfl
@[simp] theorem buffer_write : (f.write text).buffer = f.buffer ++ text := rfl
@[simp] theorem parenDepth_write : (f.write text).parenDepth = f.parenDepth := rfl
@[simp] theorem removed_write : (f.write text).removed = f.removed := rfl
@[simp] theorem atInputStart_write : (f.write text).atInputStart = f.atInputStart := rfl
@[simp] theorem afterPseudoElement_write :
    (f.write text).afterPseudoElement = f.afterPseudoElement := rfl

@[simp] theorem parts_push : (f.push part).parts = f.parts ++ [part] := rfl
@[simp] theorem buffer_push : (f.push part).buffer = f.buffer := rfl
@[simp] theorem parenDepth_push : (f.push part).parenDepth = f.parenDepth := rfl
@[simp] theorem removed_push : (f.push part).removed = f.removed := rfl
@[simp] theorem atInputStart_push : (f.push part).atInputStart = f.atInputStart := rfl
@[simp] theorem afterPseudoElement_push :
    (f.push part).afterPseudoElement = f.afterPseudoElement := rfl

@[simp] theorem buffer_anchor : (f.anchor name).buffer = [] := by
  rw [anchor]
  split
  · next h => exact List.isEmpty_iff.1 (Bool.and_eq_true_iff.1 h).1
  · rfl

@[simp] theorem parenDepth_anchor : (f.anchor name).parenDepth = f.parenDepth := by
  rw [anchor]; split <;> rfl

@[simp] theorem removed_anchor : (f.anchor name).removed = f.removed := by
  rw [anchor]; split <;> rfl

@[simp] theorem atInputStart_anchor : (f.anchor name).atInputStart = f.atInputStart := by
  rw [anchor]; split <;> rfl

@[simp] theorem afterPseudoElement_anchor :
    (f.anchor name).afterPseudoElement = f.afterPseudoElement := by
  rw [anchor]; split <;> rfl

/-- Nothing is added where the pseudo-class follows another one, and else the text before it. -/
theorem parts_anchor : f.buffer = [] ∧ f.parts ≠ [] ∧ (f.anchor name).parts = f.parts ∨
    (f.buffer = [] → f.parts = []) ∧
      (f.anchor name).parts = f.parts ++ [.regular (f.anchorText name)] := by
  rw [anchor]
  split
  · next h => exact .inl (by simpa [and_assoc] using h)
  · next h => exact .inr (by simpa using h)

end

def allParts (f : Frame) : Selector :=
  if f.buffer.isEmpty then f.parts else f.parts ++ [.regular f.buffer]

theorem isEmpty_iff {f : Frame} : f.isEmpty = true ↔ f.buffer = [] ∧ f.parts = [] := by
  simp [isEmpty]

theorem isEmpty_of_buffer {f : Frame} (h : f.buffer ≠ []) : f.isEmpty = false := by
  simp [isEmpty, h]

/-- The plain text, if there is any, is the last part. -/
theorem allParts_cases (f : Frame) : f.buffer = [] ∧ f.allParts = f.parts ∨
    f.buffer ≠ [] ∧ f.allParts = f.parts ++ [.regular f.buffer] := by
  rw [allParts]
  split
  · next h => exact .inl ⟨List.isEmpty_iff.1 h, rfl⟩
  · next h => exact .inr ⟨by simpa using h, rfl⟩

/-- The selector that is collected; without a plain part it is none. -/
def finish (selector : Text) (f : Frame) : Except Fault Selector :=
  if f.allParts.any Part.isRegular then .ok f.allParts
  else .error (.misshapen (.noRegularPart selector))

end Frame

/-! ## Lists and arguments -/

structure Level where
  finished : SelectorList := []
  frame : Frame := {}
  deriving DecidableEq

/-- A list that the open argument of a relative pseudo-class interrupts. -/
structure Suspended where
  name : Text
  level : Level
  deriving DecidableEq

structure Argument where
  name : Text
  text : Text := []
  /-- How many parentheses are open inside it. -/
  parenDepth : Nat := 0
  inRegexp : Bool := false
  deriving DecidableEq

/-- What the next token belongs to. -/
inductive Mode where
  | regular
  /-- An attribute, whose text after the opening bracket is `body`. -/
  | attribute (body : Text)
  | argument (argument : Argument)
  deriving DecidableEq

/-- What the compiler knows after some tokens. -/
structure State where
  mode : Mode := .regular
  level : Level := {}
  /-- The lists that enclose it, the innermost first. -/
  outer : List Suspended := []
  deriving DecidableEq

namespace State

def start : State := { level := { frame := { atInputStart := true } } }

def frame (s : State) : Frame := s.level.frame

def withFrame (f : Frame) (s : State) : State := { s with level := { s.level with frame := f } }

/-- How many arguments of relative pseudo-classes are open. -/
def depth (s : State) : Nat := s.outer.length

/-- The names of the relative pseudo-classes whose arguments are open, the innermost first. -/
def openNames (s : State) : List Text := s.outer.map Suspended.name

def write (text : Text) (s : State) : State := s.withFrame (s.frame.write text)

section

variable (s : State) (f : Frame) (text : Text)

@[simp] theorem frame_withFrame : (s.withFrame f).frame = f := rfl
@[simp] theorem mode_withFrame : (s.withFrame f).mode = s.mode := rfl
@[simp] theorem outer_withFrame : (s.withFrame f).outer = s.outer := rfl
@[simp] theorem finished_withFrame : (s.withFrame f).level.finished = s.level.finished := rfl

@[simp] theorem frame_write : (s.write text).frame = s.frame.write text := rfl
@[simp] theorem mode_write : (s.write text).mode = s.mode := rfl
@[simp] theorem outer_write : (s.write text).outer = s.outer := rfl
@[simp] theorem finished_write : (s.write text).level.finished = s.level.finished := rfl

end

end State

end CosmeticFilter.Selector
