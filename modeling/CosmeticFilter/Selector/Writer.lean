import CosmeticFilter.Selector.Basic

/-!
# Selectors as text

The text of a compiled selector: plain parts as they are, a pseudo-class as its name and its
argument in parentheses, the selectors of a list with commas between them.
-/

namespace CosmeticFilter

namespace Part

mutual

def text : Part → Text
  | .regular text => text
  | .absolute name argument => ':' :: name ++ '(' :: argument ++ [')']
  | .relative name argument =>
    ':' :: name ++ '(' :: Text.join [','] (selectorTexts argument) ++ [')']

def selectorText : List Part → Text
  | [] => []
  | part :: parts => text part ++ selectorText parts

def selectorTexts : List (List Part) → List Text
  | [] => []
  | selector :: selectors => selectorText selector :: selectorTexts selectors

end

@[simp]
theorem selectorText_append (xs ys : List Part) :
    selectorText (xs ++ ys) = selectorText xs ++ selectorText ys := by
  induction xs with
  | nil => rfl
  | cons x xs ih => simp [selectorText, ih]

theorem selectorTexts_eq_map (selectors : List (List Part)) :
    selectorTexts selectors = selectors.map selectorText := by
  induction selectors with
  | nil => rfl
  | cons s selectors ih => simp [selectorTexts, ih]

end Part

def Selector.text (s : Selector) : Text := Part.selectorText s

def SelectorList.text (list : SelectorList) : Text := Text.join [','] (Part.selectorTexts list)

namespace SelectorList

/-- The text of selectors with a comma after each of them. -/
def openText (list : SelectorList) : Text := list.flatMap fun s => Selector.text s ++ [',']

@[simp] theorem openText_nil : openText [] = [] := rfl

@[simp]
theorem openText_append (xs ys : SelectorList) : openText (xs ++ ys) = openText xs ++ openText ys := by
  simp [openText]

@[simp]
theorem openText_singleton (s : Selector) : openText [s] = Selector.text s ++ [','] := by
  simp [openText]

/-- The last selector of a list has no comma after it. -/
theorem text_concat (list : SelectorList) (s : Selector) :
    text (list ++ [s]) = list.openText ++ Selector.text s := by
  rw [text, Text.join, Part.selectorTexts_eq_map, List.map_append]
  induction list with
  | nil => simp [Selector.text]
  | cons x list ih =>
    rw [List.map_cons, List.cons_append, List.intercalate_cons_of_ne_nil (by simp), ih]
    simp [openText, Selector.text]

end SelectorList

theorem Part.text_relative_concat (name : Text) (list : SelectorList) (s : Selector) :
    (Part.relative name (list ++ [s])).text =
      ':' :: name ++ '(' :: (list.openText ++ Part.selectorText s) ++ [')'] := by
  have hlist : Text.join [','] (Part.selectorTexts (list ++ [s])) =
      SelectorList.openText list ++ Part.selectorText s := SelectorList.text_concat list s
  rw [Part.text, hlist]

end CosmeticFilter
