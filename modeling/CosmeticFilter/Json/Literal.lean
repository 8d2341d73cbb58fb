import CosmeticFilter.Json.Basic
import CosmeticFilter.Text.Quoted

/-!
# Values in messages

The form in which a message shows a value that it refuses: on one line, with quoted texts, and with
the words `None`, `True` and `False` for the three constants.
-/

namespace CosmeticFilter

namespace Json

mutual

def literal : Json → Text
  | .null => "None".toList
  | .bool true => "True".toList
  | .bool false => "False".toList
  | .int value => Text.ofInt value
  | .str text => Text.quoted text
  | .arr items => '[' :: Text.join [',', ' '] (literals items) ++ [']']
  | .obj fields => '\x7b' :: Text.join [',', ' '] (fieldLiterals fields) ++ ['\x7d']

def literals : List Json → List Text
  | [] => []
  | item :: items => literal item :: literals items

/-- Each field on its own: the name, a colon and the value. -/
def fieldLiterals : List (Text × Json) → List Text
  | [] => []
  | (key, value) :: fields =>
    (Text.quoted key ++ [':', ' '] ++ literal value) :: fieldLiterals fields

end

end Json

end CosmeticFilter
