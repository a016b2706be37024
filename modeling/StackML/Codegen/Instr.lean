import StackML.Machine.Opcode
import StackML.Codegen.Locals

/-!
Code under construction: instructions with their operands and source lines. A jump holds the number
of bytes it passes over, so that pieces of code are put together without being changed; `assemble`
writes the bytes, with the line of each.
-/

namespace StackML

/-- What follows an opcode. A byte keeps the low eight bits of its value, a word the low sixteen. A
jump too far for its two bytes is written with all bits set. -/
inductive Operand where
  | none
  | byte (value : Nat)
  | word (value : Int)
  | jump (distance : Nat)
  | closure (constant captures : Nat)
  deriving DecidableEq, Repr

namespace Operand

def maxJump : Nat := 0xffff

def twoBytes (value : Int) : List UInt8 :=
  [((value / 256) % 256).toNat.toUInt8, (value % 256).toNat.toUInt8]

def bytes : Operand → List UInt8
  | none => []
  | byte value => [value.toUInt8]
  | word value => twoBytes value
  | jump distance => twoBytes (Nat.min distance maxJump)
  | closure constant captures => twoBytes constant ++ [captures.toUInt8]

def size : Operand → Nat
  | none => 0
  | byte _ => 1
  | word _ | jump _ => 2
  | closure .. => 3

theorem length_bytes (o : Operand) : o.bytes.length = o.size := by
  cases o <;> rfl

end Operand

structure Instr where
  op : Opcode
  operand : Operand := .none
  line : Int
  deriving DecidableEq, Repr

namespace Instr

def bytes (i : Instr) : List UInt8 := i.op.code :: i.operand.bytes

def size (i : Instr) : Nat := i.operand.size + 1

theorem length_bytes (i : Instr) : i.bytes.length = i.size := by
  simp [bytes, size, Operand.length_bytes]

/-- Whether the instruction is a jump that its operand cannot express. -/
def isFar (i : Instr) : Bool :=
  match i.operand with
  | .jump distance => Operand.maxJump < distance
  | _ => false

end Instr

abbrev Fragment := List Instr

namespace Fragment

def size (code : Fragment) : Nat := code.foldr (fun i n => i.size + n) 0

def assemble (code : Fragment) : List (UInt8 × Int) :=
  code.flatMap fun i => i.bytes.map (·, i.line)

theorem size_append (a b : Fragment) : size (a ++ b) = a.size + b.size := by
  induction a with
  | nil => simp [size]
  | cons i a ih =>
    simp only [size, List.cons_append, List.foldr_cons] at ih ⊢
    omega

theorem length_assemble (code : Fragment) : (assemble code).length = code.size := by
  induction code with
  | nil => rfl
  | cons i code ih =>
    simp only [assemble, size, List.flatMap_cons, List.length_append, List.length_map,
      Instr.length_bytes, List.foldr_cons] at ih ⊢
    omega

end Fragment
end StackML
