import Std.Data.TreeMap
import StackML.Machine.Artifact

/-!
The constants of a module under construction. A constant whose key is known already is found again,
so that equal constants share an index.
-/

namespace StackML

structure Pool where
  entries : Array Constant := #[]
  index : Std.TreeMap Text Nat compare := {}

namespace Pool

def limit : Nat := 0x10000

/-- The index of a constant, which is added if its key is new; nothing if the pool is full. -/
def add (p : Pool) (c : Constant) : Option (Nat × Pool) :=
  let key := c.key
  match p.index.get? key with
  | some i => some (i, p)
  | none =>
    let i := p.entries.size
    if limit ≤ i then none
    else some (i, ⟨p.entries.push c, p.index.insert key i⟩)

end Pool
end StackML
