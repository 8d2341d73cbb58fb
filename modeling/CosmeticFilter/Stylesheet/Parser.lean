import CosmeticFilter.Stylesheet.Normalize
import CosmeticFilter.Stylesheet.Splitter

/-!
# Compiling stylesheets

A stylesheet is normalized, split into rules, and the declarations of each rule are settled.
-/

namespace CosmeticFilter

namespace Stylesheet

def turns (config : Config) (text : Text) : List Splitter.Turn :=
  (Splitter.trace config { rest := normalize text }).1

def rawRules (config : Config) (text : Text) : Except Fault (List RawRule) :=
  Splitter.rules config (normalize text)

def parse (config : Config) (text : Text) : Except Fault (List Rule) :=
  (rawRules config text).map fun rules => rules.map RawRule.resolve

def parseEvents (config : Config) (text : Text) : List Event :=
  (turns config text).filterMap Splitter.Turn.event ++
    match rawRules config text with
    | .ok rules => rules.flatMap RawRule.resolveEvents ++ [.sheetParsed rules.length]
    | .error _ => []

end Stylesheet

end CosmeticFilter
