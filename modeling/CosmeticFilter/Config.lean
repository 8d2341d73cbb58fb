/-!
# Limits

The one limit of the compiler: how deep the arguments of relative pseudo-classes may nest.
-/

namespace CosmeticFilter

structure Config where
  /-- How many arguments of relative pseudo-classes may stand inside each other. -/
  maxDepth : Nat := 32
  maxDepth_pos : 0 < maxDepth := by decide

namespace Config

def standard : Config := {}

/-- The limits with the given depth, if it is positive. -/
def ofInt? (depth : Int) : Option Config :=
  if h : 0 < depth then some ⟨depth.toNat, by omega⟩ else none

end Config

end CosmeticFilter
