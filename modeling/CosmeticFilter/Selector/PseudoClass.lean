import CosmeticFilter.Text.Basic

/-!
# Extended pseudo-classes

The names of the pseudo-classes that the compiler knows. The argument of a relative one is a list of
selectors; the argument of an absolute one is a text that is kept as it is.
-/

namespace CosmeticFilter

namespace PseudoClass

inductive Kind where
  /-- A list of selectors. -/
  | relative
  | absolute
  deriving DecidableEq, Repr

abbrev isName : Text := "is".toList
abbrev notName : Text := "not".toList
abbrev whereName : Text := "where".toList
abbrev ifNotName : Text := "if-not".toList
abbrev xpathName : Text := "xpath".toList
abbrev removeName : Text := "remove".toList

/-- The names of the class that matches by text content. -/
def containsNames : List Text := ["contains".toList, "has-text".toList, "-abp-contains".toList]

/-- The names of the class that matches by what an element contains. -/
def hasNames : List Text := ["has".toList, "-abp-has".toList]

def relativeNames : List Text := hasNames ++ [ifNotName, isName, notName, whereName]

def absoluteNames : List Text :=
  containsNames ++
    ["matches-css".toList, "matches-css-before".toList, "matches-css-after".toList,
      "matches-attr".toList, "matches-property".toList, xpathName, "nth-ancestor".toList,
      "upward".toList, removeName]

def supportedNames : List Text := relativeNames ++ absoluteNames

/-- The names that may not occur anywhere inside the argument of `:has()`. -/
def forbiddenInsideHas : List Text := hasNames ++ [isName, whereName]

/-- The names of the classes that could match the root element; at the start of the input they are
anchored below it. -/
def rootMatching : List Text := [isName, notName, whereName]

/-! ## Anchors -/

abbrev anyElement : Text := ['*']

abbrev belowRoot : Text := "html *".toList

/-- The plain selector that a path expression starts from. -/
abbrev pathRoot : Text := "body".toList

/-! ## Classification

Names are compared in lower case. -/

def isRelative (name : Text) : Bool := relativeNames.contains (Text.lower name)

def isAbsolute (name : Text) : Bool := absoluteNames.contains (Text.lower name)

def isSupported (name : Text) : Bool := supportedNames.contains (Text.lower name)

def kind? (name : Text) : Option Kind :=
  if isRelative name then some .relative
  else if isAbsolute name then some .absolute
  else none

end PseudoClass

end CosmeticFilter
