import CosmeticFilter.Selector.Mark

/-!
# Tokens

A selector text is cut into tokens: every mark is a token, and so is every maximal run of other
characters, a word. Concatenated, the tokens give the text back.
-/

namespace CosmeticFilter

inductive TokenKind where
  | word
  | mark
  deriving DecidableEq, Repr

structure Token where
  kind : TokenKind
  text : Text
  /-- The number of characters before it. -/
  position : Nat
  deriving DecidableEq, Repr

namespace Token

def isWord (t : Token) : Bool := t.kind = .word

def isMark (t : Token) : Bool := t.kind = .mark

/-- Whether the token is written as the single character `c`. -/
def spells (t : Token) (c : Char) : Bool := t.text = [c]

def isOf (p : Char → Bool) (t : Token) : Bool := Text.isOne p t.text

/-- Puts a character that is no mark, at `position`, before tokens: it joins the word that they
start with, or is a word of its own. -/
def consWord (c : Char) (position : Nat) : List Token → List Token
  | ⟨.word, text, _⟩ :: rest => ⟨.word, c :: text, position⟩ :: rest
  | rest => ⟨.word, [c], position⟩ :: rest

def scanFrom (position : Nat) : Text → List Token
  | [] => []
  | c :: rest =>
    if CosmeticFilter.isMark c then ⟨.mark, [c], position⟩ :: scanFrom (position + 1) rest
    else consWord c position (scanFrom (position + 1) rest)

def scan (t : Text) : List Token := scanFrom 0 t

/-- The tokens of the text between the brackets of an attribute; spaces do not count there. -/
def scanAttribute (body : Text) : List Token := scan (body.filter (· ≠ Mark.space))

/-- For each `n`, the next `n` tokens (fewer at the end). -/
def deal : List Nat → List Token → List (List Token)
  | [], _ => []
  | n :: more, tokens => tokens.take n :: deal more (tokens.drop n)

/-- The marks other than combinators and quotation marks that plain text goes on with after white
space. -/
def continuingMarks : List Char :=
  [Mark.asterisk, Mark.idMarker, Mark.classMarker, Mark.colon, Mark.squareLeft]

/-- Whether the token after white space continues the plain part before it: a word, a combinator, a
quotation mark, or the start of a compound selector. -/
def continuesAfterSpace : Option Token → Bool
  | none => false
  | some t =>
    t.isWord || t.isOf Mark.isCombinator || t.isOf Mark.isQuote
      || t.isOf continuingMarks.contains

end Token

end CosmeticFilter
