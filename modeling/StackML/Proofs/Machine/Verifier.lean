import StackML.Machine.Descriptor
import StackML.Proofs.Machine.Layout

/-!
A verifier for compiled methods. It has a shape for each instruction: the kinds of the values on the
operand stack and what the first words of the locals hold. An instruction finds what it takes, control
goes from it only to instructions whose shapes its own shape turns into, and a return finds the result of
the method's descriptor and nothing else.
-/

namespace StackML

namespace Verify

/-- How a value on the stack is held. Truth values are held as integers. -/
inductive Kind where
  | int
  | double
  | ref
  deriving DecidableEq, Repr

/-- What a word of the locals holds. A double takes two words. -/
inductive Cell where
  | int
  | high
  | low
  | ref
  deriving DecidableEq, Repr

/-- The operand stack, the topmost value first, and the words of the locals as far as they are known. -/
structure Shape where
  stack : List Kind := []
  locals : List Cell := []
  deriving DecidableEq, Repr

end Verify

open Verify

namespace Rep

def kinds : Rep → List Kind
  | int | bool => [.int]
  | double => [.double]
  | ref => [.ref]
  | void => []

def cells : Rep → List Cell
  | int | bool => [.int]
  | double => [.high, .low]
  | ref => [.ref]
  | void => []

theorem length_cells (r : Rep) : r.cells.length = r.width := by cases r <;> rfl

end Rep

/-- What a method finds on the stack for its parameters, the last of them on top. -/
def Descriptor.Signature.operands (s : Signature) : List Kind := s.params.reverse.flatMap Rep.kinds

/-- The words of the parameters, with which the locals of a method begin. -/
def Descriptor.Signature.cells (s : Signature) : List Cell := s.params.flatMap Rep.cells

namespace Verify

namespace Shape

/-- Takes values off the stack, the first of them on top, and puts others there. -/
def exchange (s : Shape) (before after : List Kind) : Option Shape :=
  if before <+: s.stack then some { s with stack := after ++ s.stack.drop before.length } else none

def load (s : Shape) (slot : Nat) (cells : List Cell) (k : Kind) : Option Shape :=
  if cells <+: s.locals.drop slot then some { s with stack := k :: s.stack } else none

/-- A store forgets what the words of the slot held before. -/
def store (s : Shape) (slot : Nat) (cells : List Cell) (k : Kind) : Option Shape := do
  let s ← s.exchange [k] []
  if slot ≤ s.locals.length then
    some { s with locals := s.locals.take slot ++ cells ++ s.locals.drop (slot + cells.length) }
  else none

/-- An instruction that has the second shape can be come to with the first one: the stack is as it
expects, and so are all words of the locals of which it expects something. -/
def Meets (s t : Shape) : Prop := s.stack = t.stack ∧ t.locals <+: s.locals

end Shape

/-- There is a shape, and it is met. -/
def Arrives (s : Shape) (t : Option Shape) : Prop := ∃ u, t = some u ∧ s.Meets u

/-- What an instruction takes and leaves, where that depends on nothing but its opcode. -/
def exchanged : Opcode → Option (List Kind × List Kind)
  | .iconst | .zconst => some ([], [.int])
  | .dconst => some ([], [.double])
  | .sconst | .unit | .getexport => some ([], [.ref])
  | .pop2 => some ([.double], [])
  | .iadd | .isub | .imul | .idiv | .irem => some ([.int, .int], [.int])
  | .ineg => some ([.int], [.int])
  | .dadd | .dsub | .dmul | .ddiv | .drem => some ([.double, .double], [.double])
  | .dneg => some ([.double], [.double])
  | .i2d => some ([.int], [.double])
  | .dcmp => some ([.double, .double], [.int])
  | .ifEq | .ifNe | .ifLt | .ifGe | .ifGt | .ifLe => some ([.int], [])
  | .ifIcmpEq | .ifIcmpNe | .ifIcmpLt | .ifIcmpGe | .ifIcmpGt | .ifIcmpLe => some ([.int, .int], [])
  | .goto => some ([], [])
  | .boxI | .boxZ | .tostrI | .tostrZ => some ([.int], [.ref])
  | .boxD | .tostrD => some ([.double], [.ref])
  | .unboxI | .unboxZ | .listIsEmpty | .instanceof => some ([.ref], [.int])
  | .unboxD => some ([.ref], [.double])
  | .tostrA | .listHead | .listTail | .getpayload => some ([.ref], [.ref])
  | .objEq => some ([.ref, .ref], [.int])
  | .apply | .listCons => some ([.ref, .ref], [.ref])
  | .printI | .printZ => some ([.int], [])
  | .printD => some ([.double], [])
  | .printA => some ([.ref], [])
  | _ => none

/-- What the descriptor of a method or host member says. -/
def signature? (k : Constant) : Option Descriptor.Signature := (Descriptor.parse k.descriptor).toOption

/-- How the value of a field is held. -/
def field? (k : Constant) : Option Rep :=
  (Descriptor.parse ("()" ++ k.descriptor)).toOption.map (·.result)

/-- What an instruction makes of a shape, given the constant that it refers to and the number behind it:
a slot, a count, or how many values a function captures. `payload` says whether a constructor has an
argument. -/
def effect (payload : Constant → Option Bool) (op : Opcode) (k : Option Constant) (n : Nat)
    (s : Shape) : Option Shape :=
  match op with
  | .iload => s.load n [.int] .int
  | .dload => s.load n [.high, .low] .double
  | .aload => s.load n [.ref] .ref
  | .istore => s.store n [.int] .int
  | .dstore => s.store n [.high, .low] .double
  | .astore => s.store n [.ref] .ref
  | .pop =>
    match s.stack with
    | .int :: rest | .ref :: rest => some { s with stack := rest }
    | _ => none
  | .dup =>
    match s.stack with
    | .int :: rest => some { s with stack := .int :: .int :: rest }
    | .ref :: rest => some { s with stack := .ref :: .ref :: rest }
    | _ => none
  | .strcat | .newlist => s.exchange (List.replicate n .ref) [.ref]
  | .getstatic => do s.exchange [] (← k.bind field?).kinds
  | .putstatic => do s.exchange (← k.bind field?).kinds []
  | .invokestatic | .invokehost | .gethostfield | .newhost => do
    let sig ← k.bind signature?
    s.exchange sig.operands sig.result.kinds
  | .invokehostvirtual => do
    let sig ← k.bind signature?
    s.exchange (sig.operands ++ [.ref]) sig.result.kinds
  | .closure => do
    let sig ← k.bind signature?
    if n < sig.params.length then s.exchange (List.replicate n .ref) [.ref] else none
  | .new => do s.exchange (if ← k.bind payload then [.ref] else []) [.ref]
  | op => do
    let (before, after) ← exchanged op
    s.exchange before after

/-- What a return finds on the stack. -/
def returned? : Opcode → Option (List Kind)
  | .ireturn => some [.int]
  | .dreturn => some [.double]
  | .areturn => some [.ref]
  | .vreturn => some []
  | _ => none

/-- An instruction finds what it takes, and what it leaves meets the shape of the instruction behind it
and of the one that it jumps to, `distance` bytes on. `next` has the shapes of what follows. -/
def Goes (payload : Constant → Option Bool) (op : Opcode) (k : Option Constant) (n distance : Nat)
    (s : Shape) (next : Nat → Option Shape) : Prop :=
  op = .matchfail ∨ ∃ t, effect payload op k n s = some t ∧ (op ≠ .goto → Arrives t (next 0)) ∧
    (op.operands = .jump → Arrives t (next distance))

/-- The constant that the instruction at an offset refers to. -/
def constantAt (constants : Array Constant) (code : Array UInt8) (offset : Nat) (op : Opcode) :
    Option Constant :=
  match op.operands with
  | .constant | .closure => constants[Disassembly.wordAt code (offset + 1)]?
  | _ => none

/-- The number behind the instruction at an offset. -/
def numberAt (code : Array UInt8) (offset : Nat) (op : Opcode) : Nat :=
  match op.operands with
  | .byte => Disassembly.byteAt code (offset + 1)
  | .slot | .count => Disassembly.wordAt code (offset + 1)
  | .closure => Disassembly.byteAt code (offset + 3)
  | _ => 0

end Verify

/-- Shapes for the instructions of a method that has the given signature. -/
structure Method.Assigns (payload : Constant → Option Bool) (constants : Array Constant) (m : Method)
    (s : Descriptor.Signature) (shapes : Nat → Shape) : Prop where
  entry : Shape.Meets ⟨[], s.cells⟩ (shapes 0)
  returns : ∀ offset op, m.Has offset op → op.isReturn = true →
    returned? op = some s.result.kinds ∧ (shapes offset).stack = s.result.kinds
  goes : ∀ offset op, m.Has offset op → op.isReturn = false →
    Goes payload op (constantAt constants m.code offset op) (numberAt m.code offset op)
      (Disassembly.wordAt m.code (offset + 1)) (shapes offset)
      fun distance => some (shapes (offset + op.width + distance))

/-- The method has a descriptor that can be read, and its instructions have shapes. -/
def Method.Verified (payload : Constant → Option Bool) (constants : Array Constant) (m : Method) : Prop :=
  ∃ s shapes, Descriptor.parse m.descriptor = .ok s ∧ m.Assigns payload constants s shapes

end StackML
