import CosmeticFilter.Fault

/-!
# Events

What the compiler reports while it works, and the log line of each report.
-/

namespace CosmeticFilter

/-- Something worth a line in the log. -/
inductive Event where
  | selectorParsed (selector : Text) (count : Nat)
  /-- The text before a brace is no complete selector. -/
  | candidateIncomplete (candidate : Text) (fault : Fault)
  | debugDropped (value selector : Text)
  | sheetParsed (count : Nat)

namespace Event

def source : Event → Text
  | .selectorParsed _ _ => "extcss.selector.parser".toList
  | .candidateIncomplete _ _ => "extcss.stylesheet.parser".toList
  | .debugDropped _ _ => "extcss.stylesheet.rule_data".toList
  | .sheetParsed _ => "extcss.stylesheet.parser".toList

def message : Event → Text
  | .selectorParsed selector count =>
    "Parsed selector ".toList ++ Text.quoted selector ++ " into ".toList ++ Text.ofNat count
      ++ " selector(s)".toList
  | .candidateIncomplete candidate fault =>
    "Selector candidate ".toList ++ Text.quoted candidate ++ " is incomplete: ".toList
      ++ fault.message
  | .debugDropped value selector =>
    "Dropping invalid debug value ".toList ++ Text.quoted value ++ " for selector ".toList
      ++ Text.quoted selector
  | .sheetParsed count =>
    "Parsed stylesheet into ".toList ++ Text.ofNat count ++ " rule(s)".toList

def line (e : Event) : Text := "DEBUG ".toList ++ e.source ++ ": ".toList ++ e.message

end Event

end CosmeticFilter
