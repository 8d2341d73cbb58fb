import CosmeticFilter.Config
import CosmeticFilter.Event
import CosmeticFilter.Node.WellFormed
import CosmeticFilter.Selector.Attribute
import CosmeticFilter.Selector.Placement
import CosmeticFilter.Selector.Regexp
import CosmeticFilter.Selector.State

/-!
# Compiling selectors

`SelectorList.compile` compiles the text of a selector list. It is one pass over the tokens: `step`
reads a token, with the tokens after it in view, and `run` repeats it to the end of the input. An
extended pseudo-class is opened by three tokens at once (colon, name and parenthesis); the step that
meets the colon consumes all three. `SelectorList.parse` also checks the shape of the tree that
comes out.
-/

namespace CosmeticFilter.Selector

structure Input where
  /-- The whole text, without white space at its ends. -/
  selector : Text
  config : Config

/-- What reading a token leaves. -/
structure Step where
  state : State
  /-- How many of the following tokens are consumed too. -/
  skip : Nat := 0

namespace State

/-! ## Attributes and arguments -/

def readAttribute (body : Text) (t : Token) (s : State) : Except Fault State := do
  let closed ← if t.spells Mark.squareRight then Attribute.closes body else .ok false
  let mode := if closed then Mode.regular else .attribute (body ++ t.text)
  return { s.write t.text with mode }

/-- Ends the argument of an absolute pseudo-class. The marker of removal has none, every other
pseudo-class needs one. -/
def closeArgument (input : Input) (a : Argument) (s : State) : Except Fault State :=
  if a.name = PseudoClass.removeName then
    if a.text.isEmpty then
      .ok { s.withFrame { s.frame.push (.absolute a.name a.text) with removed := true } with
        mode := .regular }
    else .error (.malformed (.removeArgument input.selector a.text))
  else if a.text.isEmpty then .error (.malformed (.missingArgument a.name input.selector))
  else .ok { s.withFrame (s.frame.push (.absolute a.name a.text)) with mode := .regular }

/-- Reads a token of the argument of an absolute pseudo-class. Parentheses count outside regular
expressions only. -/
def readArgument (input : Input) (a : Argument) (t : Token) (s : State) : Except Fault State :=
  let keep (a : Argument) : State :=
    { s with mode := .argument { a with text := a.text ++ t.text } }
  if a.inRegexp then
    .ok (keep { a with inRegexp := !(t.spells Mark.slash && Regexp.closes a.text) })
  else if t.spells Mark.slash then
    (Regexp.opensIn a.name a.text).map fun opened => keep { a with inRegexp := opened }
  else if t.spells Mark.parenLeft then .ok (keep { a with parenDepth := a.parenDepth + 1 })
  else if t.spells Mark.parenRight then
    match a.parenDepth with
    | 0 => s.closeArgument input a
    | depth + 1 => .ok (keep { a with parenDepth := depth })
  else .ok (keep a)

/-! ## Pseudo-classes -/

def openRelative (input : Input) (name : Text) (s : State) : Except Fault State :=
  if input.config.maxDepth < s.depth + 1 then
    .error (.violation (.tooDeep input.config.maxDepth input.selector))
  else
    .ok { s with
      level := {}
      outer := ⟨name, { s.level with frame := s.frame.anchor name }⟩ :: s.outer }

/-- Refuses the marker of removal inside an argument and without a selector before it. -/
def checkRemove (input : Input) (s : State) : Except Fault Unit :=
  match s.outer with
  | enclosing :: _ => .error (.violation (.removeNested enclosing.name input.selector))
  | [] =>
    if (Text.trimSpace s.frame.buffer).isEmpty && s.frame.parts.isEmpty then
      .error (.violation (.removeFirst input.selector))
    else .ok ()

def openAbsolute (input : Input) (name : Text) (s : State) : Except Fault State := do
  if name = PseudoClass.removeName then s.checkRemove input
  return { s.withFrame (s.frame.anchor name) with mode := .argument { name } }

def openExtended (input : Input) (name : Text) (s : State) :
    PseudoClass.Kind → Except Fault State
  | .relative => s.openRelative input name
  | .absolute => s.openAbsolute input name

/-- The extended pseudo-class that the tokens after a colon name, in lower case. -/
def extendedName? : List Token → Option (Text × PseudoClass.Kind)
  | t :: _ =>
    if t.isWord then
      let name := Text.lower t.text
      (PseudoClass.kind? name).map fun kind => (name, kind)
    else none
  | [] => none

/-- Whether the tokens after a colon are a name and an opening parenthesis. -/
def opensArgument : List Token → Bool
  | _ :: t :: _ => t.spells Mark.parenLeft
  | _ => false

/-- Whether the tokens after a colon start with another colon, as in a pseudo-element. -/
def startsWithColon : List Token → Bool
  | t :: _ => t.spells Mark.colon
  | [] => false

/-- Copies a colon as plain text. A selector that starts with it is one of any element. -/
def copyColon (rest : List Token) (s : State) : State :=
  let f := if s.frame.isEmpty then s.frame.write PseudoClass.anyElement else s.frame
  s.withFrame { f.write [Mark.colon] with
    afterPseudoElement := f.afterPseudoElement || startsWithColon rest }

/-- Reads a colon in plain text, with the tokens after it in view. In the argument of a plain
pseudo-class all pseudo-classes are plain text, and those of the `:has()` family are refused. -/
def readColon (input : Input) (rest : List Token) (s : State) : Except Fault Step :=
  match extendedName? rest with
  | none => .ok { state := s.copyColon rest }
  | some (name, kind) =>
    if 0 < s.frame.parenDepth then do
      Placement.checkHas name true s.frame.afterPseudoElement
      return { state := s.copyColon rest }
    else do
      Placement.checkInsideHas name s.openNames
      Placement.checkHas name false s.frame.afterPseudoElement
      if opensArgument rest then
        return { state := ← s.openExtended input name kind, skip := 2 }
      else .error (.malformed (.missingArgument name input.selector))

/-! ## Plain text -/

/-- Refuses everything but white space and a comma after the marker of removal. -/
def checkAfterRemove (input : Input) (t : Token) (rest : List Token) (s : State) :
    Except Fault Unit :=
  if !s.frame.removed || t.isOf Text.isSpace || t.spells Mark.comma then .ok ()
  else if t.spells Mark.colon
      && rest.head?.any (fun next => Text.lower next.text = PseudoClass.removeName) then
    .error (.violation (.removeRepeated input.selector))
  else .error (.violation (.removeNotLast input.selector))

def readComma (input : Input) (s : State) : Except Fault State := do
  let selector ← s.frame.finish input.selector
  return { s with level := { finished := s.level.finished ++ [selector] } }

/-- Ends the argument of the relative pseudo-class that interrupts `enclosing`; `outer` are the
lists that enclose that one. -/
def closeRelative (input : Input) (enclosing : Suspended) (outer : List Suspended) (s : State) :
    Except Fault State :=
  if s.frame.isEmpty && s.level.finished.isEmpty then
    .error (.malformed (.missingArgument enclosing.name input.selector))
  else do
    let selector ← s.frame.finish input.selector
    let part := Part.relative enclosing.name (s.level.finished ++ [selector])
    return { s with
      level := { enclosing.level with frame := enclosing.level.frame.push part }
      outer := outer }

/-- Reads white space. In plain text it is kept inside parentheses, and else where the text goes on
after it. -/
def readSpace (t : Token) (rest : List Token) (s : State) : State :=
  if 0 < s.frame.parenDepth then s.write t.text
  else if s.frame.isEmpty then s
  else if Token.continuesAfterSpace rest.head? then s.write t.text
  else s

/-- Reads a token that is plain text wherever it stands, brackets included. -/
def readPlain (t : Token) (s : State) : State :=
  let s' := s.write t.text
  if Attribute.opens t.text (s.frame.buffer.getLast?.map fun c => [c]) then
    { s' with mode := .attribute [] }
  else if t.spells Mark.parenLeft then
    s'.withFrame { s'.frame with parenDepth := s'.frame.parenDepth + 1 }
  else if t.spells Mark.parenRight then
    s'.withFrame { s'.frame with parenDepth := s'.frame.parenDepth - 1 }
  else s'

/-- Reads a token outside parentheses that may end a selector: a comma, or the parenthesis that
closes the innermost argument. -/
def readEnd? (input : Input) (t : Token) (s : State) : Option (Except Fault State) :=
  if 0 < s.frame.parenDepth then none
  else if t.spells Mark.comma then some (s.readComma input)
  else if t.spells Mark.parenRight then
    match s.outer with
    | enclosing :: outer => some (s.closeRelative input enclosing outer)
    | [] => none
  else none

def readRegular (input : Input) (t : Token) (rest : List Token) (s : State) :
    Except Fault Step := do
  s.checkAfterRemove input t rest
  match s.readEnd? input t with
  | some next => return { state := ← next }
  | none =>
    if t.spells Mark.colon then s.readColon input rest
    else if t.isOf Text.isSpace then return { state := s.readSpace t rest }
    else return { state := s.readPlain t }

/-! ## The pass over the tokens -/

def step (input : Input) (s : State) (t : Token) (rest : List Token) : Except Fault Step :=
  match s.mode with
  | .attribute body => (s.readAttribute body t).map fun next => { state := next }
  | .argument a => (s.readArgument input a t).map fun next => { state := next }
  | .regular => s.readRegular input t rest

/-- Reads all tokens, of which the first `skip` are consumed already. -/
def run (input : Input) : (skip : Nat) → State → List Token → Except Fault State
  | _, s, [] => .ok s
  | skip + 1, s, _ :: rest => run input skip s rest
  | 0, s, t :: rest =>
    match s.step input t rest with
    | .error fault => .error fault
    | .ok next => run input next.skip next.state rest

def finish (input : Input) (s : State) : Except Fault SelectorList :=
  match s.mode, s.outer with
  | .argument a, _ =>
    if a.inRegexp then .error (.malformed (.unclosedRegexp a.name a.text))
    else .error (.malformed (.unclosedArgument a.name input.selector))
  | _, enclosing :: _ => .error (.malformed (.unclosedArgument enclosing.name input.selector))
  | .attribute body, [] => .error (.malformed (.unclosedAttribute input.selector body))
  | .regular, [] => do
    let selector ← s.frame.finish input.selector
    return s.level.finished ++ [selector]

end State

end CosmeticFilter.Selector

namespace CosmeticFilter

open Selector in
/-- Compiles the text of a selector list, whatever the shape of the tree is. -/
def SelectorList.compile (config : Config) (text : Text) : Except Fault SelectorList :=
  let input : Input := ⟨Text.trimSpace text, config⟩
  if input.selector.isEmpty then .error (.malformed .noSelector)
  else (State.start.run input 0 (Token.scan input.selector)).bind (State.finish input)

/-- Compiles the text of a selector list and checks the shape of its tree. -/
def SelectorList.parse (config : Config) (text : Text) : Except Fault SelectorList :=
  (compile config text).bind fun list => (Node.validate (some list.toNode)).map fun _ => list

/-- What is reported when the text of a selector list is compiled. -/
def SelectorList.parseEvents (config : Config) (text : Text) : List Event :=
  match SelectorList.parse config text with
  | .ok list => [.selectorParsed text list.length]
  | .error _ => []

end CosmeticFilter
