import CosmeticFilter.Fault
import CosmeticFilter.Selector.Token

/-!
# Attributes

An attribute stands between square brackets. Which bracket closes it depends on the text before the
bracket, because a quoted value may hold brackets itself.
-/

namespace CosmeticFilter

namespace Attribute

/-- Whether the text `value` opens an attribute after `previous`: it is a bracket that no backslash
escapes. -/
def opens (value : Text) (previous : Option Text) : Bool :=
  value = [Mark.squareLeft] && previous ≠ some [Mark.backslash]

def isEqualSign (t : Token) : Bool := t.isMark && t.spells Mark.equalSign

/-- Whether the last token before a bracket completes a value that starts with `opening`. An
unquoted value ends in a word. A quoted value ends in its own quotation mark, which the flag `i` may
follow. -/
def endsValue (body : Text) (opening last : Token) (beforeLast : Option Token) :
    Except Fault Bool :=
  if opening.isOf Mark.isQuote then
    if last.isWord && Text.lower last.text = ['i'] then
      .ok (beforeLast.any fun t => t.text = opening.text)
    else .ok (last.text = opening.text)
  else if last.isWord then .ok true
  else .error (.malformed (.attributeValue body))

/-- Whether the tokens of an attribute without a value are complete: they end in a word or in an
escaped quotation mark. -/
def endsName (last : Token) (beforeLast : Option Token) : Bool :=
  last.isWord
    || (last.isOf Mark.isQuote && beforeLast.any fun t => t.spells Mark.backslash)

/-- Whether the bracket after `body` closes the attribute; it does not if it belongs to the value.
A text that no further character can complete is refused. -/
def closes (body : Text) : Except Fault Bool :=
  let tokens := Token.scanAttribute body
  match tokens.head?, tokens.getLast? with
  | some first, some last =>
    let beforeLast := tokens.dropLast.getLast?
    if first.isMark && !first.spells Mark.backslash then
      .error (.malformed (.attributeStart body first.text))
    else if last.spells Mark.equalSign then .error (.malformed (.attributeEnd body))
    else
      match tokens.dropWhile (fun t => !isEqualSign t) with
      | _ :: opening :: _ => endsValue body opening last beforeLast
      | _ => .ok (endsName last beforeLast)
  | _, _ => .ok false

end Attribute

end CosmeticFilter
