import StackML.Machine.Disassembly
import StackML.Proofs.Text

/-!
The layout of compiled methods. Read from its first byte on, one instruction after the other, a
method is used up exactly; its jumps go to instructions, its operands name constants of the right kind
and slots that it has, and control does not run past its end. A listing has a line for each of these
instructions.
-/

namespace StackML

namespace Opcode

def slotWords : Opcode → Nat
  | dload | dstore => 2
  | _ => 1

def constantKind? : Opcode → Option ConstantKind
  | iconst => some .int
  | dconst => some .double
  | sconst => some .string
  | getstatic | putstatic => some .field
  | invokestatic | closure => some .method
  | invokehost | invokehostvirtual | gethostfield | newhost => some .host
  | getexport => some .exported
  | new | instanceof => some .holder
  | _ => none

def isReturn : Opcode → Bool
  | ireturn | dreturn | areturn | vreturn => true
  | _ => false

end Opcode

open Disassembly (wordAt)

def opcodeAt (code : Array UInt8) (offset : Nat) : Option Opcode :=
  ((code[offset]?).bind Opcode.ofCode?).filter fun op => offset + op.width ≤ code.size

inductive Starts (code : Array UInt8) : Nat → Prop where
  | first : Starts code 0
  | next {offset op} :
      Starts code offset → opcodeAt code offset = some op → Starts code (offset + op.width)

structure Method.Has (m : Method) (offset : Nat) (op : Opcode) : Prop where
  start : Starts m.code offset
  here : opcodeAt m.code offset = some op

/-- Longer than any memory holds: 2 to the 61st. The words that the parameters of a shorter descriptor
take are counted by a machine word. -/
def Descriptor.limit : Nat := 0x2000000000000000

structure Method.WellFormed (constants : Array Constant) (m : Method) : Prop where
  nonempty : 0 < m.code.size
  /-- Decoding ends with the code and meets nothing else on its way. -/
  covers : Starts m.code m.code.size
  decodes : ∀ offset, Starts m.code offset → offset < m.code.size → ∃ op, m.Has offset op
  jumps : ∀ offset op, m.Has offset op → op.operands = .jump →
    Starts m.code (offset + op.width + wordAt m.code (offset + 1)) ∧
      offset + op.width + wordAt m.code (offset + 1) < m.code.size
  constants : ∀ offset op, m.Has offset op → op.operands = .constant ∨ op.operands = .closure →
    ∃ k, constants[wordAt m.code (offset + 1)]? = some k ∧ op.constantKind? = some k.kind
  slots : m.descriptor.length < Descriptor.limit → ∀ offset op, m.Has offset op → op.operands = .slot →
    (wordAt m.code (offset + 1) + op.slotWords : Nat) ≤ m.maxLocals.toInt
  lines : m.lines.size = m.code.size
  /-- Only a return may be the last instruction. -/
  stays : ∀ offset op, m.Has offset op → op.isReturn = false → offset + op.width < m.code.size

variable {a : Artifact} {m : Method} {code : Array UInt8} {offset : Nat} {op : Opcode}

theorem Opcode.width_pos (op : Opcode) : 0 < op.width := by
  unfold Opcode.width
  cases op.operands <;> exact Nat.succ_pos _

theorem opcodeAt_le (here : opcodeAt code offset = some op) : offset + op.width ≤ code.size := by
  rw [opcodeAt, Option.filter_eq_some_iff] at here
  exact of_decide_eq_true here.2

/-! ### Listings -/

namespace Disassembly

theorem instruction_next (here : opcodeAt m.code offset = some op) :
    (instruction a m offset).2 = offset + op.width := by
  have fits := opcodeAt_le here
  rw [opcodeAt, Option.filter_eq_some_iff] at here
  simp only [instruction, here.1]
  rw [if_neg (Nat.not_lt.2 fits)]

/-- Below its head, the listing of a method has a line that begins with the offset. -/
def Lists (a : Artifact) (m : Method) (offset : Nat) : Prop :=
  ∃ line ∈ (method a m).tail,
    (Text.ofString (padLeft 4 '0' (toString offset) ++ " ")).bytes <+: line.bytes

theorem begins_instruction (a : Artifact) (m : Method) (offset : Nat) :
    (Text.ofString (padLeft 4 '0' (toString offset) ++ " ")).bytes <+: (instruction a m offset).1.bytes := by
  have begins (rest : Text) : (Text.ofString (padLeft 4 '0' (toString offset) ++ " ")).bytes <+:
      ((Text.ofString (padLeft 4 '0' (toString offset) ++ " " ++ lineColumn m.lines offset)) ++ rest).bytes := by
    rw [Text.bytes_append, Text.bytes_ofString_append _ (lineColumn _ _), List.append_assoc]
    exact List.prefix_append _ _
  unfold instruction
  dsimp only
  split
  · exact begins _
  · split
    · exact begins _
    · exact begins _

def offsets (a : Artifact) (m : Method) : (bytes offset : Nat) → List Nat
  | 0, _ => []
  | bytes + 1, offset =>
    if offset < m.code.size then offset :: offsets a m bytes (instruction a m offset).2 else []

theorem instructions_eq (done : List Text) (bytes offset : Nat) :
    instructions a m done bytes offset =
      done.reverse ++ (offsets a m bytes offset).map fun o => (instruction a m o).1 := by
  induction bytes generalizing done offset with
  | zero => exact (List.append_nil _).symm
  | succ bytes ih =>
    rw [instructions, offsets]
    split
    · exact (ih _ _).trans (by rw [List.reverse_cons, List.append_assoc]; rfl)
    · exact (List.append_nil _).symm

theorem tail_method :
    (method a m).tail = (offsets a m m.code.size 0).map fun o => (instruction a m o).1 :=
  instructions_eq [] _ _

theorem offsets_of_starts (start : Starts m.code offset) :
    ∃ bytes, m.code.size - offset ≤ bytes ∧ offsets a m bytes offset ⊆ offsets a m m.code.size 0 := by
  induction start with
  | first => exact ⟨m.code.size, Nat.sub_le _ _, fun _ => id⟩
  | @next offset op _ here ih =>
    obtain ⟨bytes, enough, inside⟩ := ih
    have fits := opcodeAt_le here
    have width := op.width_pos
    obtain ⟨bytes, rfl⟩ : ∃ b, bytes = b + 1 := ⟨bytes - 1, by omega⟩
    refine ⟨bytes, by omega, fun o listed => inside ?_⟩
    rw [offsets, if_pos (by omega), instruction_next here]
    exact List.mem_cons_of_mem _ listed

theorem lists_of_starts (start : Starts m.code offset) (below : offset < m.code.size) :
    Lists a m offset := by
  obtain ⟨bytes, enough, inside⟩ := offsets_of_starts (a := a) start
  obtain ⟨bytes, rfl⟩ : ∃ b, bytes = b + 1 := ⟨bytes - 1, by omega⟩
  have listed : offset ∈ offsets a m m.code.size 0 := by
    refine inside ?_
    rw [offsets, if_pos below]
    exact List.mem_cons_self
  refine ⟨(instruction a m offset).1, ?_, begins_instruction a m offset⟩
  rw [tail_method]
  exact List.mem_map_of_mem listed

end Disassembly

end StackML
