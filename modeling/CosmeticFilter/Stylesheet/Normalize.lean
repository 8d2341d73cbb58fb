import CosmeticFilter.Text.Blank

/-!
# Normalized stylesheets

Before a stylesheet is split into rules, comments are taken out, line breaks become spaces, and
blank characters are trimmed from both ends.
-/

namespace CosmeticFilter

namespace Stylesheet

/-! ## Comments -/

def hasCommentEnd : Text → Bool
  | '*' :: '/' :: _ => true
  | _ :: rest => hasCommentEnd rest
  | [] => false

/-- The text without its comments, where `inside` tells whether the text starts inside one. A
comment that never ends is plain text, and then nothing after its start is a comment. -/
def dropCommentsFrom : (inside : Bool) → Text → Text
  | true, '*' :: '/' :: rest => dropCommentsFrom false rest
  | true, _ :: rest => dropCommentsFrom true rest
  | false, '/' :: '*' :: rest =>
    if hasCommentEnd rest then dropCommentsFrom true rest else '/' :: '*' :: rest
  | false, c :: rest => c :: dropCommentsFrom false rest
  | _, [] => []

def dropComments (t : Text) : Text := dropCommentsFrom false t

/-! ## Line breaks -/

def isBreak (c : Char) : Bool := c = '\r' || c = '\n' || c = '\t' || c = '\x0c'

/-- The text with every run of breaks as one space, which is written where the run ends. -/
def joinLines : Text → Text
  | [] => []
  | c :: rest =>
    if isBreak c then
      if rest.head?.any isBreak then joinLines rest else ' ' :: joinLines rest
    else c :: joinLines rest

/-- The stylesheet without comments, on a single line, without blank characters at its ends. -/
def normalize (t : Text) : Text := Text.trimBlank (joinLines (dropComments t))

end Stylesheet

end CosmeticFilter
