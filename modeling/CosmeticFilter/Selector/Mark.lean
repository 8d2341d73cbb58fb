import CosmeticFilter.Text.Blank

/-!
# Marks of a selector

The characters that carry meaning in a selector. Each of them is a token of its own; all other
characters form words.
-/

namespace CosmeticFilter

namespace Mark

/-! ## White space -/

abbrev space : Char := ' '
abbrev tab : Char := '\t'
abbrev lineFeed : Char := '\n'
abbrev carriageReturn : Char := '\r'
abbrev formFeed : Char := '\x0c'

/-! ## Brackets -/

abbrev squareLeft : Char := '['
abbrev squareRight : Char := ']'
abbrev parenLeft : Char := '('
abbrev parenRight : Char := ')'
abbrev curlyLeft : Char := '\x7b'
abbrev curlyRight : Char := '\x7d'

/-! ## Punctuation -/

abbrev slash : Char := '/'
abbrev backslash : Char := '\\'
abbrev semicolon : Char := ';'
abbrev colon : Char := ':'
abbrev comma : Char := ','
abbrev singleQuote : Char := '\x27'
abbrev doubleQuote : Char := '\x22'
abbrev caret : Char := '^'
abbrev dollarSign : Char := '$'
abbrev asterisk : Char := '*'
abbrev idMarker : Char := '#'
abbrev classMarker : Char := '.'
abbrev equalSign : Char := '='

/-! ## Combinators -/

abbrev child : Char := '>'
abbrev nextSibling : Char := '+'
abbrev subsequentSibling : Char := '~'

/-! ## Classes -/

/-- The combinators that are not white space. -/
def combinators : List Char := [child, nextSibling, subsequentSibling]

def quotes : List Char := [singleQuote, doubleQuote]

def all : List Char :=
  [squareLeft, squareRight, parenLeft, parenRight, curlyLeft, curlyRight, slash, backslash,
    semicolon, colon, comma, singleQuote, doubleQuote, caret, dollarSign, asterisk, idMarker,
    classMarker, equalSign] ++ combinators ++ Text.selectorSpace

def isCombinator (c : Char) : Bool := combinators.contains c

def isQuote (c : Char) : Bool := quotes.contains c

end Mark

def isMark (c : Char) : Bool := Mark.all.contains c

end CosmeticFilter
