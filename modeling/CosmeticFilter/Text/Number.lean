import CosmeticFilter.Text.Blank

/-!
# Integers given as text

The form in which an integer may be given as an option's value: blank characters around it, a sign,
and decimal digits of any script, where a single low line may stand between two digits.
-/

namespace CosmeticFilter

namespace Text

/-- The code points of the digit zero in the scripts that have decimal digits; the digits one to
nine follow each of them. -/
def digitZeros : List Nat :=
  [0x30, 0x660, 0x6F0, 0x7C0, 0x966, 0x9E6, 0xA66, 0xAE6, 0xB66, 0xBE6, 0xC66, 0xCE6, 0xD66, 0xDE6,
    0xE50, 0xED0, 0xF20, 0x1040, 0x1090, 0x17E0, 0x1810, 0x1946, 0x19D0, 0x1A80, 0x1A90, 0x1B50,
    0x1BB0, 0x1C40, 0x1C50, 0xA620, 0xA8D0, 0xA900, 0xA9D0, 0xA9F0, 0xAA50, 0xABF0, 0xFF10, 0x104A0,
    0x10D30, 0x11066, 0x110F0, 0x11136, 0x111D0, 0x112F0, 0x11450, 0x114D0, 0x11650, 0x116C0,
    0x11730, 0x118E0, 0x11950, 0x11C50, 0x11D50, 0x11DA0, 0x16A60, 0x16AC0, 0x16B50, 0x1D7CE,
    0x1D7D8, 0x1D7E2, 0x1D7EC, 0x1D7F6, 0x1E140, 0x1E2F0, 0x1E950, 0x1FBF0]

def digit? (c : Char) : Option Nat :=
  digitZeros.findSome? fun base =>
    if base ≤ c.toNat ∧ c.toNat < base + 10 then some (c.toNat - base) else none

/-- The values of one or more digits; a single low line may stand between two of them. -/
def digits? : Text → Option (List Nat)
  | [] => none
  | [c] => (digit? c).map fun d => [d]
  | c :: '_' :: rest => (digit? c).bind fun d => (digits? rest).map (d :: ·)
  | c :: rest => (digit? c).bind fun d => (digits? rest).map (d :: ·)

/-- An integer has at most this many digits, zeros in front included. -/
def maxDigits : Nat := 4300

/-- The number with the given decimal digits, the most significant first. -/
def ofDecimal (digits : List Nat) : Nat := digits.foldl (fun n d => 10 * n + d) 0

def readNat? (t : Text) : Option Nat :=
  (digits? t).bind fun digits => if digits.length ≤ maxDigits then some (ofDecimal digits) else none

/-- Whether a character may stand around an integer: a blank character that is no information
separator. -/
def isMargin (c : Char) : Bool := isBlank c && !(0x1C ≤ c.toNat && c.toNat ≤ 0x1F)

def readInt? (t : Text) : Option Int :=
  match trim isMargin t with
  | '-' :: rest => (readNat? rest).map fun n => -(n : Int)
  | '+' :: rest => (readNat? rest).map fun n => (n : Int)
  | rest => (readNat? rest).map fun n => (n : Int)

end Text

end CosmeticFilter
