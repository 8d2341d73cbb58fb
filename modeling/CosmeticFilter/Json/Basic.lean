import CosmeticFilter.Text.Basic

/-!
# JSON values

Values of the data format in which trees and rules are read and written. The fields of an object
keep their order. No fractions occur, so a number is an integer.
-/

namespace CosmeticFilter

inductive Json where
  | null
  | bool (value : Bool)
  | int (value : Int)
  | str (text : Text)
  | arr (items : List Json)
  | obj (fields : List (Text × Json))
  deriving Inhabited

namespace Json

/-- The value of a field of an object; of several fields of one name, the first. -/
def field? (key : Text) : Json → Option Json
  | .obj fields => fields.lookup key
  | _ => none

/-- The text of a field that holds one, and the empty text otherwise. -/
def textField (key : Text) (j : Json) : Text :=
  match j.field? key with
  | some (.str t) => t
  | _ => []

end Json

end CosmeticFilter
