import CosmeticFilter.Text.Basic

/-!
# Compiled selectors

A selector list holds selectors, and a selector is a sequence of parts: plain text for the native
matcher, and extended pseudo-classes that apply to what stands before them.
-/

namespace CosmeticFilter

inductive Part where
  /-- Plain text, handed to the native matcher as it is. -/
  | regular (text : Text)
  /-- An extended pseudo-class whose argument is a text. -/
  | absolute (name argument : Text)
  /-- An extended pseudo-class whose argument is a list of selectors. -/
  | relative (name : Text) (argument : List (List Part))

abbrev Selector := List Part

/-- A list of selectors, any of which may match. -/
abbrev SelectorList := List Selector

namespace Part

def isRegular : Part → Bool
  | .regular _ => true
  | _ => false

/-! ## Equality -/

mutual

def decEq : (a b : Part) → Decidable (a = b)
  | .regular s, .regular t => decidable_of_iff (s = t) (by simp)
  | .absolute m s, .absolute n t => decidable_of_iff (m = n ∧ s = t) (by simp)
  | .relative m s, .relative n t =>
    have := decEqLists s t
    decidable_of_iff (m = n ∧ s = t) (by simp)
  | .regular _, .absolute _ _ => isFalse nofun
  | .regular _, .relative _ _ => isFalse nofun
  | .absolute _ _, .regular _ => isFalse nofun
  | .absolute _ _, .relative _ _ => isFalse nofun
  | .relative _ _, .regular _ => isFalse nofun
  | .relative _ _, .absolute _ _ => isFalse nofun

def decEqParts : (a b : List Part) → Decidable (a = b)
  | [], [] => isTrue rfl
  | [], _ :: _ => isFalse nofun
  | _ :: _, [] => isFalse nofun
  | a :: as, b :: bs =>
    have := decEq a b
    have := decEqParts as bs
    decidable_of_iff (a = b ∧ as = bs) (by simp)

def decEqLists : (a b : List (List Part)) → Decidable (a = b)
  | [], [] => isTrue rfl
  | [], _ :: _ => isFalse nofun
  | _ :: _, [] => isFalse nofun
  | a :: as, b :: bs =>
    have := decEqParts a b
    have := decEqLists as bs
    decidable_of_iff (a = b ∧ as = bs) (by simp)

end

instance : DecidableEq Part := decEq

/-! ## Nesting -/

mutual

/-- How many relative pseudo-classes stand inside each other in a part. -/
def depth : Part → Nat
  | .regular _ => 0
  | .absolute _ _ => 0
  | .relative _ argument => depthOfLists argument + 1

def depthOfParts : List Part → Nat
  | [] => 0
  | part :: parts => max (depth part) (depthOfParts parts)

def depthOfLists : List (List Part) → Nat
  | [] => 0
  | selector :: selectors => max (depthOfParts selector) (depthOfLists selectors)

end

end Part

end CosmeticFilter
