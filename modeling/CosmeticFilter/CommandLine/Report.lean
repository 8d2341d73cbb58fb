import CosmeticFilter.Node.Json
import CosmeticFilter.Stylesheet.Rule

/-!
# Reports

The lines that describe a tree, and those that sum up the rules of a stylesheet.
-/

namespace CosmeticFilter

namespace Node

def describe : Node → Text
  | .leaf (.regular value) => NodeKind.regular.text ++ ' ' :: Text.inQuotes value
  | .leaf (.absolute name value) =>
    NodeKind.absolute.text ++ " :".toList ++ name ++ '(' :: value ++ [')']
  | .branch (.relative name) _ => NodeKind.relative.text ++ " :".toList ++ name
  | n => n.kind.text

mutual

/-- The lines of a tree, each node indented by its depth. -/
def outline (depth : Nat) : Node → List Text
  | .leaf content => [List.replicate (2 * depth) ' ' ++ (Node.leaf content).describe]
  | .branch content children =>
    (List.replicate (2 * depth) ' ' ++ (Node.branch content children).describe)
      :: outlineAll (depth + 1) children

def outlineAll (depth : Nat) : List Node → List Text
  | [] => []
  | node :: nodes => outline depth node ++ outlineAll depth nodes

end

end Node

namespace Rule

/-- What a rule does, in a few words. -/
def effects (r : Rule) : List Text :=
  let style :=
    if r.isRemove then ["remove".toList]
    else (r.style.map fun ds => Text.ofNat ds.length ++ " declaration(s)".toList).toList
  style ++ (r.debug.map fun value => "debug=".toList ++ value).toList

def summary (r : Rule) : Text :=
  Text.join [' ', ' '] (([' ', ' '] ++ r.selector) :: r.effects)

end Rule

/-- The summary of a stylesheet that is read from the file `name`. -/
def summaryLines (name : Text) (rules : List Rule) : List Text :=
  rules.map Rule.summary ++
    [[], "OK: ".toList ++ name ++ " is valid (".toList ++ Text.ofNat rules.length
      ++ " rule(s))".toList]

end CosmeticFilter
