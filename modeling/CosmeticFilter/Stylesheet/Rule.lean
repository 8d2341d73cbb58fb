import CosmeticFilter.Event
import CosmeticFilter.Node.Json
import CosmeticFilter.Stylesheet.Declaration

/-!
# Rules

A rule is collected with all declarations of its selector in order. `RawRule.resolve` settles them:
what the rule removes, how it is debugged, and which value each property has.
-/

namespace CosmeticFilter

/-- A rule as it is collected. -/
structure RawRule where
  selector : Text
  ast : SelectorList
  styles : List Declaration
  deriving DecidableEq

/-- A rule that is ready to be applied. -/
structure Rule where
  selector : Text
  ast : SelectorList
  /-- The declarations, each property once; none if the rule only asks for debugging. -/
  style : Option (List Declaration)
  debug : Option Text
  deriving DecidableEq

namespace Declaration

abbrev removeKey : Text := "remove".toList
abbrev debugKey : Text := "debug".toList
abbrev positive : Text := "true".toList

def removal : Declaration := ⟨removeKey, positive⟩

def debugValues : List Text := [positive, "global".toList]

def isDebug (d : Declaration) : Bool := d.property = debugKey

/-- The style of a rule: a removal replaces every other declaration. -/
def style? (ds : List Declaration) : Option (List Declaration) :=
  if ds.contains removal then some [removal]
  else if ds.isEmpty then none
  else some (settle ds)

/-- The value of the first declaration that asks for debugging. -/
def debugValue? (ds : List Declaration) : Option Text := (ds.find? isDebug).map Declaration.value

end Declaration

def Rule.isRemove (r : Rule) : Bool := r.style = some [Declaration.removal]

namespace RawRule

def resolve (raw : RawRule) : Rule where
  selector := raw.selector
  ast := raw.ast
  style := Declaration.style? (raw.styles.filter fun d => !d.isDebug)
  debug := (Declaration.debugValue? raw.styles).filter Declaration.debugValues.contains

/-- Settles the declarations that are held for a selector, as a computation that reads them. Those that
ask for debugging are left out only where there are any. -/
def prepare (selector : Text) (ast : SelectorList) : StateM (List Declaration) Rule := do
  let declarations ← get
  let debug := Declaration.debugValue? declarations
  let styles := if debug.isSome then declarations.filter fun d => !d.isDebug else declarations
  return {
    selector
    ast
    style := Declaration.style? styles
    debug := debug.filter Declaration.debugValues.contains }

def resolveEvents (raw : RawRule) : List Event :=
  match Declaration.debugValue? raw.styles with
  | some value =>
    if Declaration.debugValues.contains value then [] else [.debugDropped value raw.selector]
  | none => []

/-- Adds a rule to a table of rules with different selectors: a rule of the same selector takes the
declarations over, else the rule is added at the end. -/
def save (raw : RawRule) : List RawRule → List RawRule
  | [] => [raw]
  | stored :: rest =>
    if stored.selector = raw.selector then
      { stored with styles := stored.styles ++ raw.styles } :: rest
    else stored :: save raw rest

end RawRule

/-- The JSON form of a rule; fields that are not set are left out. -/
def Rule.toJson (r : Rule) : Json :=
  .obj ([("selector".toList, .str r.selector), ("ast".toList, r.ast.toNode.toJson)]
    ++ (r.style.map fun ds =>
        ("style".toList, Json.obj (ds.map fun d => (d.property, .str d.value)))).toList
    ++ (r.debug.map fun value => ("debug".toList, Json.str value)).toList)

end CosmeticFilter
