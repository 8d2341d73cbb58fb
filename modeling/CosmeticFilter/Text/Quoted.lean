import CosmeticFilter.Text.Hidden

/-!
# Quoted texts

The form in which a text is quoted in a log line or a message: between quotation marks, with every
character that would not show written as an escape.
-/

namespace CosmeticFilter

namespace Text

/-- The hexadecimal digits of `n`, in lower case, with zeros in front up to `width` digits. -/
def hex (width n : Nat) : Text := (Nat.toDigits 16 n).leftpad width '0'

/-- The escape of a character by its code point, in two, four or eight digits. -/
def codeEscape (c : Char) : Text :=
  if c.toNat < 0x100 then '\\' :: 'x' :: hex 2 c.toNat
  else if c.toNat < 0x10000 then '\\' :: 'u' :: hex 4 c.toNat
  else '\\' :: 'U' :: hex 8 c.toNat

/-- One character between quotation marks `mark`. -/
def quoteChar (mark c : Char) : Text :=
  if c = mark ∨ c = '\\' then ['\\', c]
  else if c = '\n' then ['\\', 'n']
  else if c = '\r' then ['\\', 'r']
  else if c = '\t' then ['\\', 't']
  else if isHidden c then codeEscape c
  else [c]

/-- The quotation mark for a text: the double one if only the single one occurs in it. -/
def quoteMark (t : Text) : Char :=
  if '\x27' ∈ t ∧ '\x22' ∉ t then '\x22' else '\x27'

def quoted (t : Text) : Text :=
  quoteMark t :: t.flatMap (quoteChar (quoteMark t)) ++ [quoteMark t]

end Text

end CosmeticFilter
