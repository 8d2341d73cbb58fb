import CosmeticFilter.Fault
import CosmeticFilter.Node.Basic

/-!
# Trees as JSON

Every node is an object with its kind, the fields that its kind has, and its children. Reading
ignores other fields, and missing ones are empty.
-/

namespace CosmeticFilter

namespace Node

abbrev kindKey : Text := "type".toList
abbrev nameKey : Text := "name".toList
abbrev valueKey : Text := "value".toList
abbrev childrenKey : Text := "children".toList

def object (kind : NodeKind) (fields : List (Text × Text)) (children : List Json) : Json :=
  .obj ((kindKey, .str kind.text) :: fields.map (fun (key, text) => (key, Json.str text))
    ++ [(childrenKey, .arr children)])

mutual

def toJson : Node → Json
  | .leaf (.regular value) => object .regular [(valueKey, value)] []
  | .leaf (.absolute name value) => object .absolute [(nameKey, name), (valueKey, value)] []
  | .branch .selectorList children => object .selectorList [] (toJsonAll children)
  | .branch .selector children => object .selector [] (toJsonAll children)
  | .branch .extended children => object .extended [] (toJsonAll children)
  | .branch (.relative name) children => object .relative [(nameKey, name)] (toJsonAll children)

def toJsonAll : List Node → List Json
  | [] => []
  | node :: nodes => toJson node :: toJsonAll nodes

end

/-! ## Reading -/

def kindOf? (j : Json) : Option NodeKind :=
  match j.field? kindKey with
  | some (.str t) => NodeKind.ofText? t
  | _ => none

/-- The node of the given kind with the given children, which a leaf must not have; its other
content is read from the object. -/
def build (kind : NodeKind) (j : Json) (children : List Node) : Except Fault Node :=
  match kind with
  | .selectorList => .ok (.branch .selectorList children)
  | .selector => .ok (.branch .selector children)
  | .extended => .ok (.branch .extended children)
  | .relative => .ok (.branch (.relative (j.textField nameKey)) children)
  | .regular =>
    if children.isEmpty then .ok (.leaf (.regular (j.textField valueKey)))
    else .error (.misshapen (.leafWithChildren kind.text))
  | .absolute =>
    if children.isEmpty then
      .ok (.leaf (.absolute (j.textField nameKey) (j.textField valueKey)))
    else .error (.misshapen (.leafWithChildren kind.text))

mutual

/-- The tree of a JSON form. The kind of a node is checked before its children are read, and its
children are read before a leaf is refused for having some. -/
def ofJson : Json → Except Fault Node
  | .obj fields =>
    match kindOf? (.obj fields) with
    | none => .error (.misshapen (.unknownKind (.obj fields)))
    | some kind => do build kind (.obj fields) (← ofChildren fields)
  | other => .error (.misshapen (.unknownKind other))

def ofChildren : List (Text × Json) → Except Fault (List Node)
  | [] => .ok []
  | (key, value) :: fields =>
    if key = childrenKey then
      match value with
      | .arr items => ofItems items
      | _ => .ok []
    else ofChildren fields

/-- The trees of the JSON forms of a list, read from left to right. -/
def ofItems : List Json → Except Fault (List Node)
  | [] => .ok []
  | item :: items => do
    let node ← ofJson item
    return node :: (← ofItems items)

end

end Node

end CosmeticFilter
