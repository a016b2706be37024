/-!
Sets of code points given by ranges. Character classes of the Unicode standard are tables of such
ranges, each in a module of its own.
-/

namespace StackML.Text

/-- A set of code points: the ranges it is made of, both ends included. -/
abbrev Ranges := List (Nat × Nat)

def Ranges.has (ranges : Ranges) (code : Nat) : Bool :=
  ranges.any fun (low, high) => low ≤ code && code ≤ high

theorem Ranges.has_iff (ranges : Ranges) (code : Nat) :
    ranges.has code = true ↔ ∃ r ∈ ranges, r.1 ≤ code ∧ code ≤ r.2 := by
  simp [Ranges.has]

end StackML.Text
