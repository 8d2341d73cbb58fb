import CosmeticFilter.Fault
import CosmeticFilter.Node.Basic

/-!
# Reading trees

Functions that look up one piece of a tree and say what is wrong where it is missing. Some callers
give the wording of the fault themselves; an empty wording counts as none.
-/

namespace CosmeticFilter

/-- The fault in the caller's words, or else the usual one. -/
def Misshapen.orStated (usual : Misshapen) : Option Text → Misshapen
  | some (c :: words) => .stated (c :: words)
  | _ => usual

namespace Node

def isRegular (n : Node) : Bool := n.kind = .regular

def isPseudoClass (n : Node) : Bool := n.kind = .absolute || n.kind = .relative

def nonEmpty (text : Text) (fault : Misshapen) : Except Fault Text :=
  if text.isEmpty then .error (.misshapen fault) else .ok text

def name : Option Node → Except Fault Text
  | none => .error (.misshapen .noNode)
  | some (.leaf (.absolute name _)) => nonEmpty name .emptyName
  | some (.branch (.relative name) _) => nonEmpty name .emptyName
  | some _ => .error (.misshapen .nameless)

/-- The value of plain text or of an absolute pseudo-class. -/
def value (message : Option Text) : Option Node → Except Fault Text
  | none => .error (.misshapen .noNode)
  | some (.leaf (.regular value)) => nonEmpty value (Misshapen.emptyValue.orStated message)
  | some (.leaf (.absolute _ value)) => nonEmpty value (Misshapen.emptyValue.orStated message)
  | some (.branch _ _) => .error (.misshapen .valueless)

def firstRegular (message : Option Text) (children : List Node) : Except Fault Node :=
  match children.find? isRegular with
  | some child => .ok child
  | none => .error (.misshapen (Misshapen.noRegularChild.orStated message))

def lastRegular (children : List Node) : Except Fault Node :=
  match children.reverse.find? isRegular with
  | some child => .ok child
  | none => .error (.misshapen .noRegularChild)

def onlyChild (fault : Misshapen) (n : Node) : Except Fault Node :=
  match n.children with
  | [child] => .ok child
  | _ => .error (.misshapen fault)

def pseudoClass (n : Node) : Except Fault Node := do
  let child ← n.onlyChild .extendedArity
  if child.isPseudoClass then return child else .error (.misshapen .extendedChild)

def argumentList : Option Node → Except Fault Node
  | some (.branch (.relative name) children) => do
    let name ← nonEmpty name .emptyName
    let child ← (Node.branch (.relative name) children).onlyChild (.relativeArity name)
    if child.kind = .selectorList then return child else .error (.misshapen (.relativeChild name))
  | _ => .error (.misshapen .notRelative)

end Node

end CosmeticFilter
