import CosmeticFilter.Text.Basic

/-!
# Source files

What a path can lead to, and the text of a file: UTF-8, with every kind of line ending as a line
feed.
-/

namespace CosmeticFilter

namespace CommandLine

inductive Source where
  | missing
  | directory
  | file (bytes : ByteArray)

/-- The text with every line ending (carriage return, line feed, or both) as a line feed. -/
def unifyLines : Text → Text
  | '\r' :: '\n' :: rest => '\n' :: unifyLines rest
  | '\r' :: rest => '\n' :: unifyLines rest
  | c :: rest => c :: unifyLines rest
  | [] => []

/-- The text of a file, if its bytes are valid UTF-8. -/
def decode? (bytes : ByteArray) : Option Text :=
  (String.fromUTF8? bytes).map fun s => unifyLines s.toList

def Source.text? : Source → Option Text
  | .file bytes => decode? bytes
  | .missing | .directory => none

def components : Text → List Text
  | [] => [[]]
  | c :: rest =>
    match components rest with
    | first :: more => if c = '/' then [] :: first :: more else (c :: first) :: more
    | [] => [[c]]

/-- The last component of a path; components that stand for the directory itself do not count. -/
def fileName (path : Text) : Text :=
  (((components path).filter fun part => part ≠ [] ∧ part ≠ ['.']).getLast?).getD []

end CommandLine

end CosmeticFilter
