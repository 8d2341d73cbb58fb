import CosmeticFilter.Fault
import CosmeticFilter.Selector.PseudoClass

/-!
# Placement of pseudo-classes

Where the pseudo-classes may stand that look into an element: `:has()` and its relatives.
-/

namespace CosmeticFilter

namespace Placement

/-- Refuses a pseudo-class that may not stand inside `:has()` if the argument of one is among the
arguments that are open. -/
def checkInsideHas (name : Text) (openNames : List Text) : Except Fault Unit :=
  if PseudoClass.forbiddenInsideHas.contains name
      && openNames.any PseudoClass.hasNames.contains then
    .error (.violation (.insideHas name))
  else .ok ()

/-- Refuses `:has()` in the argument of a plain pseudo-class and after a pseudo-element. -/
def checkHas (name : Text) (insideRegular afterPseudoElement : Bool) : Except Fault Unit :=
  if PseudoClass.hasNames.contains name then
    if insideRegular then .error (.violation (.hasInsideRegular name))
    else if afterPseudoElement then .error (.violation (.hasAfterPseudoElement name))
    else .ok ()
  else .ok ()

end Placement

end CosmeticFilter
