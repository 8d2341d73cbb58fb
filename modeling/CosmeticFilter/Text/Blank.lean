import CosmeticFilter.Text.Basic

/-!
# White space

Two classes of white space occur. Selectors know the five characters of CSS. Stylesheets are trimmed
by the wider class of blank characters: the separators of Unicode (space, line and paragraph
separators) and the control characters that divide lines or fields.
-/

namespace CosmeticFilter

namespace Text

def selectorSpace : List Char := [' ', '\t', '\n', '\r', '\x0c']

def isSpace (c : Char) : Bool := selectorSpace.contains c

/-- The blank characters, as ranges of code points, in ascending order. -/
def blankRanges : List (Nat × Nat) :=
  [(0x09, 0x0D), (0x1C, 0x20), (0x85, 0x85), (0xA0, 0xA0), (0x1680, 0x1680), (0x2000, 0x200A),
    (0x2028, 0x2029), (0x202F, 0x202F), (0x205F, 0x205F), (0x3000, 0x3000)]

def isBlank (c : Char) : Bool :=
  blankRanges.any fun (low, high) => low ≤ c.toNat && c.toNat ≤ high

def trimSpace (t : Text) : Text := trim isSpace t

def trimBlank (t : Text) : Text := trim isBlank t

end Text

end CosmeticFilter
