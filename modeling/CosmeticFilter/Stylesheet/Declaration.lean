import CosmeticFilter.Fault
import CosmeticFilter.Text.Blank

/-!
# Declarations

The block of a rule holds declarations, each a property and a value with a colon between them, and
semicolons between the declarations. Delimiters directly after a backslash are plain characters.
-/

namespace CosmeticFilter

structure Declaration where
  property : Text
  value : Text
  deriving DecidableEq, Repr

namespace Declaration

/-- Sets a property: where it is set already its value is replaced, else it is added at the end. -/
def put (d : Declaration) : List Declaration → List Declaration
  | [] => [d]
  | e :: rest => if e.property = d.property then d :: rest else e :: put d rest

/-- The declarations with every property once, in the order of the first ones and with the values of
the last ones. -/
def settle (ds : List Declaration) : List Declaration :=
  ds.foldl (fun settled d => put d settled) []

end Declaration

structure Block where
  declarations : List Declaration
  rest : Text
  deriving DecidableEq, Repr

namespace Block

/-- Whether a character divides declarations, or the property of one from its value. -/
def isDivider (c : Char) : Bool := c = ':' || c = ';' || c = '\x7d'

def isEnd (c : Char) : Bool := c = ';' || c = '\x7d'

def hasContent (t : Text) : Bool := !(Text.trimBlank t).isEmpty

def declaration (css before after : Text) : Except Fault Declaration :=
  if !hasContent before then .error (.sheet (.noProperty css))
  else if !hasContent after then .error (.sheet (.noValue css))
  else .ok ⟨Text.trimBlank before, Text.trimBlank after⟩

/-- Reads the rest of a block after the declarations `found`. The whole text `css` is named in
faults; `styled` tells whether the rule has declarations from elsewhere, so that its block may be
empty. -/
def readFrom (css : Text) (styled : Bool) (found : List Declaration) (rest : Text) :
    Except Fault Block :=
  match _h : Text.cutUnescaped? isDivider rest with
  | none => .error (.sheet (.invalidStyle css css))
  | some cut =>
    if cut.mark = '\x7d' then
      if hasContent cut.before then .error (.sheet (.invalidStyle css cut.before))
      else if found.isEmpty && !styled then .error (.sheet (.emptyStyle css))
      else .ok ⟨found, cut.after⟩
    else if cut.mark = ';' then
      if hasContent cut.before then .error (.sheet (.invalidStyle css css))
      else readFrom css styled found cut.after
    else
      match _h' : Text.cutUnescaped? isEnd cut.after with
      | none => .error (.sheet (.openStyle css))
      | some stop =>
        match declaration css cut.before stop.before with
        | .error fault => .error fault
        | .ok d =>
          if stop.mark = '\x7d' then .ok ⟨found ++ [d], stop.after⟩
          else readFrom css styled (found ++ [d]) stop.after
termination_by rest.length
decreasing_by
  · exact Text.length_after_lt _h
  · exact Nat.lt_trans (Text.length_after_lt _h') (Text.length_after_lt _h)

def read (css : Text) (styled : Bool) : Except Fault Block := readFrom css styled [] css

/-- Where the closing brace of a block stands in the text `css` that it was read from. -/
def closingIndex (css : Text) (b : Block) : Nat := css.length - b.rest.length - 1

/-- What follows a block is shorter than what was left to read. -/
theorem length_rest_lt {css : Text} {styled : Bool} {found : List Declaration} {rest : Text}
    {b : Block} (h : readFrom css styled found rest = .ok b) : b.rest.length < rest.length := by
  fun_induction readFrom css styled found rest with
  | case1 | case2 | case3 | case5 | case7 | case8 => simp at h
  | case4 found rest cut hcut => cases h; exact Text.length_after_lt hcut
  | case6 found rest cut hcut _ _ _ ih =>
    exact Nat.lt_trans (ih h) (Text.length_after_lt hcut)
  | case9 found rest cut hcut _ _ stop hstop =>
    cases h
    exact Nat.lt_trans (Text.length_after_lt hstop) (Text.length_after_lt hcut)
  | case10 found rest cut hcut _ _ stop hstop _ _ _ ih =>
    exact Nat.lt_trans (ih h)
      (Nat.lt_trans (Text.length_after_lt hstop) (Text.length_after_lt hcut))

end Block

end CosmeticFilter
