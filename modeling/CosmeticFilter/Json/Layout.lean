import CosmeticFilter.Json.Basic
import CosmeticFilter.Text.Quoted

/-!
# JSON text

The indented layout of a JSON value. Every item of an array and every field of an object has a line
of its own, indented by its depth; an empty array or object is a pair of brackets. Characters from
U+007F on are written as they are. A width of indentation that fits into no machine word gives no
layout.
-/

namespace CosmeticFilter

namespace Json

def escapeChar (c : Char) : Text :=
  if c = '\x22' ∨ c = '\\' then ['\\', c]
  else if c = '\n' then ['\\', 'n']
  else if c = '\r' then ['\\', 'r']
  else if c = '\t' then ['\\', 't']
  else if c = '\x08' then ['\\', 'b']
  else if c = '\x0c' then ['\\', 'f']
  else if c.toNat < 0x20 then '\\' :: 'u' :: Text.hex 4 c.toNat
  else [c]

def stringText (t : Text) : Text := '\x22' :: t.flatMap escapeChar ++ ['\x22']

def lineBreak (width depth : Nat) : Text := '\n' :: List.replicate (width * depth) ' '

mutual

/-- The layout of a value at the given depth, with `width` blanks for each level. -/
def layoutAt (width depth : Nat) : Json → Text
  | .null => "null".toList
  | .bool true => "true".toList
  | .bool false => "false".toList
  | .int value => Text.ofInt value
  | .str text => stringText text
  | .arr [] => ['[', ']']
  | .arr (item :: items) =>
    '[' :: lineBreak width (depth + 1) ++ layoutAt width (depth + 1) item
      ++ layoutItems width (depth + 1) items ++ lineBreak width depth ++ [']']
  | .obj [] => ['\x7b', '\x7d']
  | .obj ((key, value) :: fields) =>
    '\x7b' :: lineBreak width (depth + 1) ++ stringText key ++ [':', ' ']
      ++ layoutAt width (depth + 1) value ++ layoutFields width (depth + 1) fields
      ++ lineBreak width depth ++ ['\x7d']

/-- The items after the first one, each after a comma and a line break. -/
def layoutItems (width depth : Nat) : List Json → Text
  | [] => []
  | item :: items =>
    ',' :: lineBreak width depth ++ layoutAt width depth item ++ layoutItems width depth items

def layoutFields (width depth : Nat) : List (Text × Json) → Text
  | [] => []
  | (key, value) :: fields =>
    ',' :: lineBreak width depth ++ stringText key ++ [':', ' '] ++ layoutAt width depth value
      ++ layoutFields width depth fields

end

/-- Whether a width of indentation fits into a machine word of 64 bits. -/
def IsWidth (indent : Int) : Prop := Int64.minValue.toInt ≤ indent ∧ indent ≤ Int64.maxValue.toInt

instance (indent : Int) : Decidable (IsWidth indent) := inferInstanceAs (Decidable (_ ∧ _))

/-- The layout of a value, unless the width is too great or too small. A negative width indents by
nothing. -/
def layout? (indent : Int) (j : Json) : Option Text :=
  if IsWidth indent then some (layoutAt indent.toNat 0 j) else none

end Json

end CosmeticFilter
