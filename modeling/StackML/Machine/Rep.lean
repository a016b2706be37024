import StackML.Defect

/-!
How values are held by the machine. Integers and booleans take one word, doubles two, everything
else one reference word; a method without a result leaves nothing.
-/

namespace StackML

inductive Rep where
  | int
  | bool
  | double
  | ref
  | void
  deriving DecidableEq, Repr, Inhabited

namespace Rep

/-- The number of words a value takes on the stack and among the locals. -/
def width : Rep → Nat
  | double => 2
  | void => 0
  | _ => 1

def name : Rep → String
  | int => "int"
  | bool => "bool"
  | double => "double"
  | ref => "ref"
  | void => "void"

/-- The representation of values of a type. Variables are boxed; a numeric variable has no
representation. -/
def ofTy : Ty → Except Defect Rep
  | .int => .ok int
  | .bool => .ok bool
  | .double => .ok double
  | .num id => .error (.numericLeft (.num id))
  | _ => .ok ref

theorem ofTy_ne_void {t : Ty} {r : Rep} (h : ofTy t = .ok r) : r ≠ .void := by
  unfold ofTy at h
  split at h <;> cases h <;> nofun

/-- The representation of a method result, where unit leaves nothing. -/
def ofResult : Ty → Except Defect Rep
  | .unit => .ok void
  | t => ofTy t

def ofTy? : Option Ty → Except Defect Rep
  | some t => ofTy t
  | none => .error .missingType

end Rep
end StackML
