import CosmeticFilter.Stylesheet.Rule

/-!
# The marker of removal

In a stylesheet, `:remove()` at the end of a selector removes the matched elements. It is taken off
the text and becomes a declaration.
-/

namespace CosmeticFilter

namespace Removal

abbrev marker : Text := ":remove()".toList

/-- The start of a marker, with or without an argument. -/
abbrev markerStart : Text := ":remove(".toList

/-- The selector without the marker of removal, and the declarations that the marker stands for. -/
def split (selector : Text) : Except Fault (Text × List Declaration) :=
  match Text.cutAt? marker selector with
  | none =>
    if Text.contains markerStart selector then .error (.sheet (.removeInvalid selector))
    else .ok (selector, [])
  | some (before, after) =>
    if before.isEmpty then .error (.sheet (.removeFirst selector))
    else if Text.contains marker after then .error (.sheet (.removeRepeated selector))
    else if !after.isEmpty then .error (.sheet (.removeNotLast selector))
    else .ok (before, [Declaration.removal])

end Removal

end CosmeticFilter
