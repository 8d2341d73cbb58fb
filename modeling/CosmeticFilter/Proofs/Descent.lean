import CosmeticFilter.Selector.Parser

/-!
# The compiler as a recursive descent

`SelectorList.descend` compiles a selector list in the way in which its grammar nests. The argument of a relative
pseudo-class is read by a call of the loop that reads lists, and that of an absolute one by a call that collects
text. The calls share a cursor into the tokens and a stack of the names of the pseudo-classes whose arguments are
open. Each call is told how deep it is nested; only the order of pushes, calls and pops ties that depth to the stack.

Where a call looks at the top of the stack or pops it, indexes the tokens, or looks at the last token of an
attribute, the place itself does not say that there is one. Such an access is `found`, and what a call relies on is
`holds`. Where one of them fails, or a loop runs out of fuel, the `Outcome` is `none`, which is no fault that
compiling could report.
-/

namespace CosmeticFilter

/-! ### Computations that ask for what may not be there -/

/-- The result of a computation, or `none` where it asks for something that is not there. -/
abbrev Outcome (α : Type) : Type := ExceptT Fault Option α

namespace Outcome

variable {α : Type}

def total (x : Except Fault α) : Outcome α := ExceptT.mk (some x)

def fail (fault : Fault) : Outcome α := total (.error fault)

/-- What is asked for, which has to be there. -/
def found (x : Option α) : Outcome α := ExceptT.mk (x.map .ok)

/-- What has to hold at this place. -/
def holds (p : Prop) [Decidable p] : Outcome Unit := if p then pure () else found none

end Outcome

open Outcome

namespace Selector.Descent

/-! ### Attributes -/

/-- Whether the last token completes a value that starts with `opening`. After a quotation mark there has to be one. -/
def endsValue (body : Text) (opening : Token) (last? beforeLast : Option Token) : Outcome Bool :=
  if opening.isOf Mark.isQuote then do
    let last ← found last?
    if last.isWord && Text.lower last.text = ['i'] then pure (beforeLast.any fun t => t.text = opening.text)
    else pure (last.text = opening.text)
  else if last?.any Token.isWord then pure true
  else fail (.malformed (.attributeValue body))

/-- Whether the bracket after `body` closes the attribute. After an equal sign there has to be another token. -/
def closes (body : Text) : Outcome Bool :=
  let tokens := Token.scanAttribute body
  let last? := tokens.getLast?
  let beforeLast := tokens.dropLast.getLast?
  match tokens.head?.filter fun first => first.isMark && !first.spells Mark.backslash with
  | some first => fail (.malformed (.attributeStart body first.text))
  | none =>
    if last?.any fun last => last.spells Mark.equalSign then fail (.malformed (.attributeEnd body))
    else
      match tokens.findIdx? Attribute.isEqualSign with
      | none =>
        pure (last?.any Token.isWord ||
          beforeLast.any (fun t => t.spells Mark.backslash) && last?.any (Token.isOf Mark.isQuote))
      | some i => do
        let opening ← found tokens[i + 1]?
        endsValue body opening last? beforeLast

/-! ### The cursor -/

structure Cursor where
  position : Nat := 0
  /-- The names of the extended pseudo-classes whose arguments are open, the innermost first. -/
  openNames : List Text := []

namespace Cursor

variable (c : Cursor)

def advance (n : Nat) : Cursor := { c with position := c.position + n }

def push (name : Text) : Cursor := { c with openNames := name :: c.openNames }

def pop : Outcome Cursor := do
  let names ← found c.openNames.tail?
  pure { c with openNames := names }

/-- The name of the innermost pseudo-class, of which there has to be one. -/
def innermost : Outcome Text := found c.openNames.head?

/-- The text of the token before the cursor, if there is one. -/
def previous (tokens : List Token) : Outcome (Option Text) :=
  if 0 < c.position then do
    let t ← found tokens[c.position - 1]?
    pure (some t.text)
  else pure none

end Cursor

section

variable (input : Input) (tokens : List Token)

/-! ### Arguments of absolute pseudo-classes -/

/-- Collects the text up to the parenthesis that ends the argument, at `depth` arguments of relative
pseudo-classes. -/
def collect (depth : Nat) : (fuel : Nat) → Argument → Cursor → Outcome (Text × Cursor)
  | 0, _, _ => found none
  | fuel + 1, a, c => do
    holds (c.position ≤ tokens.length ∧ c.openNames.length = depth + 1)
    match tokens[c.position]? with
    | none =>
      if a.inRegexp then fail (.malformed (.unclosedRegexp a.name a.text))
      else fail (.malformed (.unclosedArgument a.name input.selector))
    | some t =>
      let keep (a : Argument) := collect depth fuel { a with text := a.text ++ t.text } (c.advance 1)
      if a.inRegexp then keep { a with inRegexp := !(t.spells Mark.slash && Regexp.closes a.text) }
      else if t.spells Mark.slash then do
        holds (c.openNames ≠ [])
        let opened ← total (Regexp.opens c.openNames a.text)
        keep { a with inRegexp := opened }
      else if t.spells Mark.parenLeft then keep { a with parenDepth := a.parenDepth + 1 }
      else if t.spells Mark.parenRight then
        match a.parenDepth with
        | 0 => pure (a.text, c.advance 1)
        | parenDepth + 1 => keep { a with parenDepth }
      else keep a

def checkRemove (depth : Nat) (s : State) (c : Cursor) : Outcome Unit :=
  if 0 < depth then do
    let enclosing ← c.innermost
    fail (.violation (.removeNested enclosing input.selector))
  else if (Text.trimSpace s.frame.buffer).isEmpty && s.frame.parts.isEmpty then
    fail (.violation (.removeFirst input.selector))
  else pure ()

/-- Reads the absolute pseudo-class `name`, with the cursor after its opening parenthesis. -/
def absolute (fuel depth : Nat) (name : Text) (s : State) (c : Cursor) : Outcome (State × Cursor) := do
  (if name = PseudoClass.removeName then checkRemove input depth s c else pure ())
  let s := s.withFrame (s.frame.anchor name)
  let opened := c.push name
  let (text, c) ← collect input tokens depth fuel { name } opened
  holds (c.openNames = opened.openNames)
  let c ← c.pop
  let s ← total (s.closeArgument input { name, text })
  pure (s, c)

/-! ### Arguments of relative pseudo-classes -/

variable (selectors : Nat → Cursor → Outcome (SelectorList × Cursor))

/-- Reads the relative pseudo-class `name`, with the cursor after its opening parenthesis; `selectors`
reads the list that is its argument. -/
def relative (depth : Nat) (name : Text) (s : State) (c : Cursor) : Outcome (State × Cursor) :=
  if input.config.maxDepth < depth + 1 then fail (.violation (.tooDeep input.config.maxDepth input.selector))
  else do
    let opened := c.push name
    let (argument, c) ← selectors (depth + 1) opened
    holds (c.openNames = opened.openNames)
    let c ← c.pop
    pure (s.withFrame ((s.frame.anchor name).push (.relative name argument)), c)

def colon (fuel depth : Nat) (s : State) (c : Cursor) : Outcome (State × Cursor) :=
  let rest := tokens.drop (c.position + 1)
  match State.extendedName? rest with
  | none => pure (s.copyColon rest, c.advance 1)
  | some (name, kind) =>
    if 0 < s.frame.parenDepth then do
      total (Placement.checkHas name true s.frame.afterPseudoElement)
      pure (s.copyColon rest, c.advance 1)
    else do
      total (Placement.checkInsideHas name c.openNames)
      total (Placement.checkHas name false s.frame.afterPseudoElement)
      if State.opensArgument rest then
        match kind with
        | .relative => relative input selectors depth name s (c.advance 3)
        | .absolute => absolute input tokens fuel depth name s (c.advance 3)
      else fail (.malformed (.missingArgument name input.selector))

/-! ### Selector lists -/

def finishSelector (s : State) : Outcome Selector :=
  match s.mode with
  | .attribute body => fail (.malformed (.unclosedAttribute input.selector body))
  | _ => total (s.frame.finish input.selector)

def readPlain (previous : Option Text) (t : Token) (s : State) : State :=
  let s' := s.write t.text
  if Attribute.opens t.text previous then { s' with mode := .attribute [] }
  else if t.spells Mark.parenLeft then s'.withFrame { s'.frame with parenDepth := s'.frame.parenDepth + 1 }
  else if t.spells Mark.parenRight then s'.withFrame { s'.frame with parenDepth := s'.frame.parenDepth - 1 }
  else s'

def readAttribute (body : Text) (t : Token) (s : State) : Outcome State := do
  let closed ← (if t.spells Mark.squareRight then closes body else pure false)
  let mode := if closed then Mode.regular else .attribute (body ++ t.text)
  pure { s.write t.text with mode }

/-- The list that the end of the input ends. -/
def endList (depth : Nat) (s : State) (c : Cursor) : Outcome (SelectorList × Cursor) :=
  if 0 < depth then do
    let name ← c.innermost
    fail (.malformed (.unclosedArgument name input.selector))
  else do
    let selector ← finishSelector input s
    pure (s.level.finished ++ [selector], c)

inductive Pass where
  | returns (list : SelectorList) (c : Cursor)
  | repeats (s : State) (c : Cursor)

/-- The list that the parenthesis at the cursor ends. -/
def closeList (s : State) (c : Cursor) : Outcome Pass :=
  if s.frame.isEmpty && s.level.finished.isEmpty then do
    let name ← c.innermost
    fail (.malformed (.missingArgument name input.selector))
  else do
    let selector ← finishSelector input s
    pure (.returns (s.level.finished ++ [selector]) (c.advance 1))

/-- Reads the token `t` at the cursor where it is plain text, and with a colon the pseudo-class that it opens. -/
def readRegular (fuel depth : Nat) (t : Token) (s : State) (c : Cursor) : Outcome Pass := do
  let rest := tokens.drop (c.position + 1)
  total (s.checkAfterRemove input t rest)
  if s.frame.parenDepth = 0 ∧ t.spells Mark.comma then do
    let selector ← finishSelector input s
    pure (.repeats { s with level := { finished := s.level.finished ++ [selector] } } (c.advance 1))
  else if s.frame.parenDepth = 0 ∧ t.spells Mark.parenRight ∧ 0 < depth then closeList input s c
  else if t.spells Mark.colon then do
    let (s, c) ← colon input tokens selectors fuel depth s c
    pure (.repeats s c)
  else if t.isOf Text.isSpace then pure (.repeats (s.readSpace t rest) (c.advance 1))
  else do
    let previous ← c.previous tokens
    pure (.repeats (readPlain previous t s) (c.advance 1))

/-- Reads the token `t` at the cursor. The argument of an absolute pseudo-class is not read here. -/
def pass (fuel depth : Nat) (t : Token) (s : State) (c : Cursor) : Outcome Pass :=
  match s.mode with
  | .argument _ => found none
  | .attribute body => do
    let s ← readAttribute body t s
    pure (.repeats s (c.advance 1))
  | .regular => readRegular input tokens selectors fuel depth t s c

/-- Reads selectors up to the parenthesis that ends the argument, at `depth` arguments of relative
pseudo-classes, or to the end of the input. Of the state, a call changes the mode and the level only. -/
def loop : (fuel depth : Nat) → State → Cursor → Outcome (SelectorList × Cursor)
  | 0, _, _, _ => found none
  | fuel + 1, depth, s, c => do
    holds (c.position ≤ tokens.length ∧ c.openNames.length = depth)
    match tokens[c.position]? with
    | none => endList input depth s c
    | some t =>
      let next ← pass input tokens (fun depth c => loop fuel depth {} c) fuel depth t s c
      match next with
      | .returns list c => pure (list, c)
      | .repeats s c => loop fuel depth s c

end

end Selector.Descent

namespace SelectorList

open Selector

def descend (config : Config) (text : Text) : Outcome SelectorList :=
  let input : Input := ⟨Text.trimSpace text, config⟩
  let tokens := Token.scan input.selector
  if tokens.isEmpty then fail (.malformed .noSelector)
  else do
    let (list, c) ← Descent.loop input tokens (tokens.length + 1) 0 .start {}
    holds (c.position ≤ tokens.length ∧ c.openNames = [])
    let _ ← total (Node.validate (some list.toNode))
    pure list

end SelectorList

end CosmeticFilter
