import CosmeticFilter.Node.Accessors

/-!
# Well-formed trees

`Node.validate` checks the shape of a whole tree. It walks with a stack, so that a node comes before
its descendants and later children come before earlier ones; the first node that breaks the rule of
its kind decides the fault.
-/

namespace CosmeticFilter

namespace Node

/-- Refuses a list of children unless all are of the kinds `p`. -/
def checkChildren (p : Node → Bool) (fault : Misshapen) (children : List Node) :
    Except Fault Unit :=
  if children.all p then .ok () else .error (.misshapen fault)

def checkLocal : Node → Except Fault Unit
  | .branch .selectorList children =>
    if children.isEmpty then .error (.misshapen .emptyList)
    else checkChildren (fun child => child.kind = .selector) .listChild children
  | .branch .selector children => do
    let _ ← firstRegular none children
    checkChildren (fun child => child.isRegular || child.kind = .extended) .selectorChild children
  | .branch .extended children => (pseudoClass (.branch .extended children)).map fun _ => ()
  | .branch (.relative name) children =>
    (argumentList (some (.branch (.relative name) children))).map fun _ => ()
  | .leaf (.absolute name _) => (nonEmpty name .emptyName).map fun _ => ()
  | .leaf (.regular value) => (nonEmpty value .emptyRegular).map fun _ => ()

def checkStack : List Node → Except Fault Unit
  | [] => .ok ()
  | node :: stack =>
    match node.checkLocal with
    | .error fault => .error fault
    | .ok () => checkStack (node.children.reverse ++ stack)
termination_by stack => sizeAll stack
decreasing_by
  rw [sizeAll_append, sizeAll_reverse, sizeAll, size_eq]
  omega

/-- The tree itself, if all its nodes keep the rules of their kinds. -/
def validate : Option Node → Except Fault Node
  | none => .error (.misshapen (.notANode .null))
  | some root => (checkStack [root]).map fun _ => root

end Node

end CosmeticFilter
