import CosmeticFilter.Fault
import CosmeticFilter.Selector.Mark
import CosmeticFilter.Selector.PseudoClass

/-!
# Regular expressions in arguments

The argument of an absolute pseudo-class may hold a regular expression between slashes, in which
parentheses carry no meaning. Here it is decided which slashes delimit one.
-/

namespace CosmeticFilter

namespace Regexp

/-- The characters that may stand right before the opening slash. -/
def openingMarks : List Char :=
  [Mark.parenLeft, Mark.singleQuote, Mark.doubleQuote, Mark.equalSign, Mark.classMarker, Mark.colon,
    Mark.space]

/-- Whether a slash opens a regular expression after the part `argument` of the argument of the
pseudo-class `name`. -/
def opensIn (name argument : Text) : Except Fault Bool :=
  if name = PseudoClass.xpathName then .ok false
  else if PseudoClass.containsNames.contains name then
    .ok (argument.isEmpty || Text.isOne Mark.isQuote argument)
  else
    let before := argument.getLast?.getD Mark.parenLeft
    if before = Mark.slash then .error (.malformed (.doubledSlash name argument))
    else .ok (openingMarks.contains before)

/-- Whether a slash opens a regular expression, where `openNames` are the pseudo-classes whose
arguments are open, the innermost first. -/
def opens (openNames : List Text) (argument : Text) : Except Fault Bool :=
  match openNames with
  | [] => .error (.malformed .strayRegexp)
  | name :: _ => opensIn name argument

/-- Whether a slash after the part `argument` closes a regular expression: no backslash stands
directly before it. -/
def closes (argument : Text) : Bool := argument.getLast? ≠ some Mark.backslash

end Regexp

end CosmeticFilter
