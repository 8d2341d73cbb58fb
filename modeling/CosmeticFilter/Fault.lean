import CosmeticFilter.Json.Literal

/-!
# Faults

Every way in which compiling can fail, as data. `Fault.message` words a fault, and `Fault.fragment`
is the piece of text that it points at, where there is one.
-/

namespace CosmeticFilter

inductive Malformed where
  | noSelector
  | missingArgument (name selector : Text)
  | unclosedArgument (name selector : Text)
  | unclosedRegexp (name argument : Text)
  /-- A slash directly after a slash cannot start a regular expression. -/
  | doubledSlash (name argument : Text)
  /-- A regular expression outside the argument of a pseudo-class. -/
  | strayRegexp
  | unclosedAttribute (selector body : Text)
  | attributeStart (body mark : Text)
  | attributeEnd (body : Text)
  /-- The value of an attribute is neither a word nor quoted. -/
  | attributeValue (body : Text)
  | removeArgument (selector argument : Text)
  deriving DecidableEq, Repr

/-- Which rule of nesting or placement a selector breaks. -/
inductive Violation where
  | insideHas (name : Text)
  /-- `:has()` in the argument of a plain pseudo-class. -/
  | hasInsideRegular (name : Text)
  | hasAfterPseudoElement (name : Text)
  | tooDeep (limit : Nat) (selector : Text)
  | removeNested (name selector : Text)
  | removeFirst (selector : Text)
  | removeRepeated (selector : Text)
  | removeNotLast (selector : Text)
  deriving DecidableEq, Repr

inductive Misshapen where
  /-- A selector without any plain part, in a selector text. -/
  | noRegularPart (selector : Text)
  /-- A node without any plain part among its children. -/
  | noRegularChild
  | noNode
  | notANode (value : Json)
  | unknownKind (value : Json)
  | leafWithChildren (kind : Text)
  /-- The name of a node that can have none. -/
  | nameless
  | emptyName
  | valueless
  | emptyValue
  | emptyRegular
  | extendedArity
  | extendedChild
  /-- The argument of a node that is no relative pseudo-class. -/
  | notRelative
  | relativeArity (name : Text)
  | relativeChild (name : Text)
  | emptyList
  | listChild
  /-- A child of a selector is neither a plain part nor an extended selector. -/
  | selectorChild
  /-- A fault that the caller words. -/
  | stated (message : Text)

inductive SheetFault where
  | removeInvalid (selector : Text)
  | removeFirst (selector : Text)
  | removeRepeated (selector : Text)
  | removeNotLast (selector : Text)
  | noSelector (rest : Text)
  /-- A selector without a block and without the marker of removal. -/
  | noStyle (selector fragment : Text)
  | openRule (selector : Text)
  | invalidStyle (css fragment : Text)
  | emptyStyle (css : Text)
  | openStyle (css : Text)
  | noProperty (css : Text)
  | noValue (css : Text)
  deriving DecidableEq, Repr

inductive Fault where
  | malformed (cause : Malformed)
  | violation (cause : Violation)
  | misshapen (cause : Misshapen)
  | sheet (cause : SheetFault)

/-! ## Wording -/

namespace Wording

/-- The name of a pseudo-class as it is written with empty parentheses. -/
def callText (name : Text) : Text := ':' :: name ++ ['(', ')']

def citing (words : String) (text : Text) : Text := words.toList ++ Text.inQuotes text

def ofAttribute (body : Text) (words : String) : Text :=
  Text.inQuotes ('[' :: body ++ [']']) ++ words.toList

def usage (name : Text) (words : String) : Text :=
  "Usage of :".toList ++ name ++ words.toList

end Wording

open Wording

namespace Malformed

def message : Malformed → Text
  | .noSelector => "Selector should be defined".toList
  | .missingArgument name _ =>
    "Missing arg for ".toList ++ callText name ++ " pseudo-class".toList
  | .unclosedArgument name _ =>
    citing "Unbalanced brackets for extended pseudo-class: " (callText name)
  | .unclosedRegexp name argument =>
    "Unbalanced regexp pattern in arg of ".toList ++ callText name
      ++ citing " pseudo-class: " argument
  | .doubledSlash name argument =>
    "Invalid regexp pattern for ".toList ++ callText name
      ++ citing " pseudo-class in arg part: " argument
  | .strayRegexp => "Regexp pattern allowed only in arg of extended pseudo-class".toList
  | .unclosedAttribute selector _ => citing "Unbalanced attribute brackets in selector: " selector
  | .attributeStart body mark =>
    ofAttribute body " is not a valid attribute due to " ++ Text.inQuotes mark
      ++ " at start of it".toList
  | .attributeEnd body => ofAttribute body " is not a valid attribute due to '='"
  | .attributeValue body => ofAttribute body " is not a valid attribute"
  | .removeArgument selector _ => citing "Invalid :remove() pseudo-class in selector: " selector

def fragment : Malformed → Option Text
  | .noSelector => some []
  | .missingArgument _ selector | .unclosedArgument _ selector => some selector
  | .unclosedRegexp _ argument | .doubledSlash _ argument | .removeArgument _ argument =>
    some argument
  | .strayRegexp => none
  | .unclosedAttribute _ body | .attributeStart body _ | .attributeEnd body
  | .attributeValue body => some body

end Malformed

namespace Violation

def message : Violation → Text
  | .insideHas name => usage name " pseudo-class is not allowed inside upper :has"
  | .hasInsideRegular name => usage name " pseudo-class is not allowed inside regular pseudo"
  | .hasAfterPseudoElement name =>
    usage name " pseudo-class is not allowed after any regular pseudo-element"
  | .tooDeep limit selector =>
    "Selector nesting exceeds maximum depth of ".toList ++ Text.ofNat limit ++ citing ": " selector
  | .removeNested name selector =>
    "Pseudo-class :remove() is not allowed inside ".toList ++ callText name ++ citing ": " selector
  | .removeFirst selector =>
    citing "Selector should be specified before :remove() pseudo-class: " selector
  | .removeRepeated selector =>
    citing "Pseudo-class :remove() appears more than once in selector: " selector
  | .removeNotLast selector =>
    citing "Pseudo-class :remove() should be at the end of selector: " selector

/-- The name that is misplaced, or the selector that breaks the rule. -/
def fragment : Violation → Option Text
  | .insideHas name | .hasInsideRegular name | .hasAfterPseudoElement name => some name
  | .tooDeep _ selector | .removeNested _ selector | .removeFirst selector
  | .removeRepeated selector | .removeNotLast selector => some selector

end Violation

namespace Misshapen

def message : Misshapen → Text
  | .noRegularPart selector => citing "Selector should have a regular part in selector: " selector
  | .noRegularChild => "At least one of Selector node children should be RegularSelector".toList
  | .noNode => "Ast node should be defined".toList
  | .notANode value => "Unknown ast node: ".toList ++ value.literal
  | .unknownKind value => "Unknown ast node type in ".toList ++ value.literal
  | .leafWithChildren kind => kind ++ " node cannot have children".toList
  | .nameless => "Only AbsolutePseudoClass or RelativePseudoClass ast node can have a name".toList
  | .emptyName => "Extended pseudo-class should have a name".toList
  | .valueless => "Only RegularSelector or AbsolutePseudoClass ast node can have a value".toList
  | .emptyValue =>
    "Ast RegularSelector or AbsolutePseudoClass node should have a value".toList
  | .emptyRegular => "RegularSelector should have a value".toList
  | .extendedArity => "Extended selector should be specified".toList
  | .extendedChild => "Extended selector child should be a pseudo-class".toList
  | .notRelative =>
    "Only RelativePseudoClass node can have relative SelectorList node as child".toList
  | .relativeArity name => "Missing arg for ".toList ++ callText name ++ " pseudo-class".toList
  | .relativeChild name =>
    "Arg of ".toList ++ callText name ++ " pseudo-class should be a SelectorList".toList
  | .emptyList => "SelectorList should have at least one Selector".toList
  | .listChild => "SelectorList children should be Selector nodes".toList
  | .selectorChild =>
    "Selector children should be RegularSelector or ExtendedSelector nodes".toList
  | .stated message => message

end Misshapen

namespace SheetFault

def message : SheetFault → Text
  | .removeInvalid selector => citing "Invalid :remove() pseudo-class in selector: " selector
  | .removeFirst selector =>
    citing "Selector should be specified before :remove() pseudo-class: " selector
  | .removeRepeated selector =>
    citing "Pseudo-class :remove() appears more than once in selector: " selector
  | .removeNotLast selector =>
    citing "Pseudo-class :remove() should be at the end of selector: " selector
  | .noSelector rest =>
    citing "Selector should be defined before style declaration in stylesheet: " ('\x7b' :: rest)
  | .noStyle selector _ => citing "Invalid css rule, no style or remove: " selector
  | .openRule selector => citing "Unclosed style declaration in stylesheet: " selector
  | .invalidStyle css _ => citing "Invalid style declaration in stylesheet: " css
  | .emptyStyle css => citing "Empty style declaration in stylesheet: " css
  | .openStyle css => citing "Unclosed style declaration in stylesheet: " css
  | .noProperty css => citing "Missing style property in declaration in stylesheet: " css
  | .noValue css => citing "Missing style value in declaration in stylesheet: " css

def fragment : SheetFault → Option Text
  | .removeInvalid selector | .removeFirst selector | .removeRepeated selector
  | .removeNotLast selector => some selector
  | .noSelector rest => some rest
  | .noStyle _ fragment => some fragment
  | .openRule _ => none
  | .invalidStyle _ fragment => some fragment
  | .emptyStyle css | .openStyle css | .noProperty css | .noValue css => some css

end SheetFault

namespace Fault

def message : Fault → Text
  | .malformed cause => cause.message
  | .violation cause => cause.message
  | .misshapen cause => cause.message
  | .sheet cause => cause.message

/-- The piece of text that a fault points at. -/
def fragment : Fault → Option Text
  | .malformed cause => cause.fragment
  | .violation cause => cause.fragment
  | .misshapen _ => none
  | .sheet cause => cause.fragment

/-- Whether the fault is that of a malformed selector, which a longer text may mend. -/
def isMalformed : Fault → Bool
  | .malformed _ => true
  | _ => false

end Fault

end CosmeticFilter
