/-!
# Texts

A text is the list of its characters (Unicode scalar values). Positions and lengths count
characters. This module holds the operations that every other module uses: case folding, trimming,
search for a marker, and cutting at a character that no backslash escapes.
-/

namespace CosmeticFilter

abbrev Text := List Char

namespace Text

/-- The text in lower case. Only the letters `A` to `Z` change, which decides every comparison with
a known name: the names hold ASCII characters only, and no other character has one of their letters
as its lower-case form. -/
def lower (t : Text) : Text := t.map Char.toLower

def trim (p : Char → Bool) (t : Text) : Text :=
  ((t.dropWhile p).reverse.dropWhile p).reverse

def inQuotes (t : Text) : Text := '\x27' :: t ++ ['\x27']

def ofNat (n : Nat) : Text := Nat.toDigits 10 n

def ofInt : Int → Text
  | .ofNat n => ofNat n
  | .negSucc n => '-' :: ofNat (n + 1)

/-- The texts with `separator` between each two neighbours. -/
def join (separator : Text) (parts : List Text) : Text := separator.intercalate parts

/-- Whether the text is a single character of class `p`. -/
def isOne (p : Char → Bool) : Text → Bool
  | [c] => p c
  | _ => false

/-! ## Search -/

/-- What stands before and after the first occurrence of `marker`. -/
def cutAt? (marker : Text) : Text → Option (Text × Text)
  | [] => if marker.isEmpty then some ([], []) else none
  | c :: rest =>
    if marker.isPrefixOf (c :: rest) then some ([], (c :: rest).drop marker.length)
    else (cutAt? marker rest).map fun (before, after) => (c :: before, after)

def contains (marker text : Text) : Bool := (cutAt? marker text).isSome

/-! ## Unescaped characters -/

structure Cut where
  before : Text
  mark : Char
  after : Text
  deriving DecidableEq, Repr

def Cut.push (c : Char) (cut : Cut) : Cut := { cut with before := c :: cut.before }

/-- The cut at the first character of class `stop` that no backslash escapes; `escaped` tells
whether a backslash stands directly before the text. A backslash escapes the character directly
after it whatever stands before the backslash. -/
def cutUnescapedFrom? (stop : Char → Bool) (escaped : Bool) : Text → Option Cut
  | [] => none
  | c :: rest =>
    if !escaped && stop c then some ⟨[], c, rest⟩
    else (cutUnescapedFrom? stop (c == '\\') rest).map (Cut.push c)

/-- The cut at the first character of class `stop` that does not follow a backslash directly. -/
def cutUnescaped? (stop : Char → Bool) (t : Text) : Option Cut := cutUnescapedFrom? stop false t

theorem cutUnescapedFrom?_append {stop : Char → Bool} {escaped : Bool} {t : Text} {cut : Cut}
    (h : cutUnescapedFrom? stop escaped t = some cut) :
    t = cut.before ++ cut.mark :: cut.after := by
  induction t generalizing escaped cut with
  | nil => simp [cutUnescapedFrom?] at h
  | cons c rest ih =>
    rw [cutUnescapedFrom?] at h
    split at h
    · cases h; rfl
    · obtain ⟨inner, hinner, rfl⟩ := Option.map_eq_some_iff.1 h
      simp [Cut.push, ← ih hinner]

/-- A cut loses no character of the text. -/
theorem cutUnescaped?_append {stop : Char → Bool} {t : Text} {cut : Cut}
    (h : cutUnescaped? stop t = some cut) : t = cut.before ++ cut.mark :: cut.after :=
  cutUnescapedFrom?_append h

theorem length_after_lt {stop : Char → Bool} {t : Text} {cut : Cut}
    (h : cutUnescaped? stop t = some cut) : cut.after.length < t.length := by
  have h := congrArg List.length (cutUnescaped?_append h)
  simp at h
  omega

end Text

end CosmeticFilter
