import CosmeticFilter.Selector.Basic

/-!
# Selector trees of any shape

A tree that is read from outside can have any shape, for example a selector list inside a selector
list. `Node` is the type of all such trees; compiled selectors are embedded in it by
`SelectorList.toNode`.
-/

namespace CosmeticFilter

inductive NodeKind where
  | selectorList
  | selector
  | regular
  | extended
  | absolute
  | relative
  deriving DecidableEq, Repr

namespace NodeKind

def all : List NodeKind := [selectorList, selector, regular, extended, absolute, relative]

def text : NodeKind → Text
  | .selectorList => "SelectorList".toList
  | .selector => "Selector".toList
  | .regular => "RegularSelector".toList
  | .extended => "ExtendedSelector".toList
  | .absolute => "AbsolutePseudoClass".toList
  | .relative => "RelativePseudoClass".toList

def ofText? (t : Text) : Option NodeKind := all.find? fun kind => kind.text = t

end NodeKind

/-- The content of a node without children. -/
inductive Leaf where
  | regular (value : Text)
  | absolute (name value : Text)
  deriving DecidableEq

inductive Branch where
  | selectorList
  | selector
  | extended
  | relative (name : Text)
  deriving DecidableEq

inductive Node where
  | leaf (content : Leaf)
  | branch (content : Branch) (children : List Node)

namespace Node

/-! ## Equality -/

mutual

def decEq : (a b : Node) → Decidable (a = b)
  | .leaf s, .leaf t => decidable_of_iff (s = t) (by simp)
  | .branch s as, .branch t bs =>
    have := decEqAll as bs
    decidable_of_iff (s = t ∧ as = bs) (by simp)
  | .leaf _, .branch _ _ => isFalse nofun
  | .branch _ _, .leaf _ => isFalse nofun

def decEqAll : (a b : List Node) → Decidable (a = b)
  | [], [] => isTrue rfl
  | [], _ :: _ => isFalse nofun
  | _ :: _, [] => isFalse nofun
  | a :: as, b :: bs =>
    have := decEq a b
    have := decEqAll as bs
    decidable_of_iff (a = b ∧ as = bs) (by simp)

end

instance : DecidableEq Node := decEq

/-! ## Content -/

def kind : Node → NodeKind
  | .leaf (.regular _) => .regular
  | .leaf (.absolute _ _) => .absolute
  | .branch .selectorList _ => .selectorList
  | .branch .selector _ => .selector
  | .branch .extended _ => .extended
  | .branch (.relative _) _ => .relative

def children : Node → List Node
  | .leaf _ => []
  | .branch _ children => children

mutual

def size : Node → Nat
  | .leaf _ => 1
  | .branch _ children => sizeAll children + 1

def sizeAll : List Node → Nat
  | [] => 0
  | node :: nodes => size node + sizeAll nodes

end

@[simp]
theorem sizeAll_append (xs ys : List Node) : sizeAll (xs ++ ys) = sizeAll xs + sizeAll ys := by
  induction xs with
  | nil => simp [sizeAll]
  | cons x xs ih => simp [sizeAll, ih, Nat.add_assoc]

@[simp]
theorem sizeAll_reverse (xs : List Node) : sizeAll xs.reverse = sizeAll xs := by
  induction xs with
  | nil => rfl
  | cons x xs ih => simp [sizeAll_append, sizeAll, ih, Nat.add_comm]

/-- A tree has one node more than its children together. -/
theorem size_eq (node : Node) : node.size = sizeAll node.children + 1 := by
  cases node <;> simp [size, children, sizeAll]

end Node

/-! ## Compiled selectors -/

namespace Part

mutual

/-- The tree of a part. A pseudo-class stands alone below an extended selector. -/
def toNode : Part → Node
  | .regular text => .leaf (.regular text)
  | .absolute name argument => .branch .extended [.leaf (.absolute name argument)]
  | .relative name argument =>
    .branch .extended [.branch (.relative name) [.branch .selectorList (listNodes argument)]]

def partNodes : List Part → List Node
  | [] => []
  | part :: parts => toNode part :: partNodes parts

def listNodes : List (List Part) → List Node
  | [] => []
  | selector :: selectors => .branch .selector (partNodes selector) :: listNodes selectors

end

end Part

def SelectorList.toNode (list : SelectorList) : Node := .branch .selectorList (Part.listNodes list)

end CosmeticFilter
