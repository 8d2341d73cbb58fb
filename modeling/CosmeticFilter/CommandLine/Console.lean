import CosmeticFilter.Text.Basic

/-!
# Console output

Texts that are printed lose the control sequences of terminals, which set colours and move the
cursor: an escape character, a bracket, parameters, and a letter.
-/

namespace CosmeticFilter

namespace CommandLine

def isParameter (c : Char) : Bool := c = ';' || c = '?' || c.isDigit

/-- Whether a control sequence is complete in the text after its bracket. -/
def completesSequence : Text → Bool
  | [] => false
  | c :: rest => if isParameter c then completesSequence rest else c.isAlpha

/-- The text without control sequences, where `inside` tells whether the text starts inside one,
after its bracket. -/
def dropSequencesFrom : (inside : Bool) → Text → Text
  | true, c :: rest => dropSequencesFrom (!c.isAlpha) rest
  | false, '\x1b' :: '[' :: rest =>
    if completesSequence rest then dropSequencesFrom true rest
    else '\x1b' :: '[' :: dropSequencesFrom false rest
  | false, c :: rest => c :: dropSequencesFrom false rest
  | _, [] => []

def printed (line : Text) : Text := dropSequencesFrom false line ++ ['\n']

def printedLines (lines : List Text) : Text := lines.flatMap printed

end CommandLine

end CosmeticFilter
