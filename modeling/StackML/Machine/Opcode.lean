/-!
The instructions of the machine. An instruction is one byte, its position in `Opcode.all`, and the
operand bytes its kind calls for, high byte first. Jumps go forward only, by a distance counted
from the end of the instruction.
-/

namespace StackML

inductive Opcode where
  | iconst | dconst | sconst | zconst | unit | iload | dload | aload | istore | dstore | astore
  | pop | pop2 | dup | iadd | isub | imul | idiv | irem | ineg | dadd | dsub | dmul | ddiv |
  drem | dneg | i2d | dcmp | ifEq | ifNe | ifLt | ifGe | ifGt | ifLe | ifIcmpEq | ifIcmpNe |
  ifIcmpLt | ifIcmpGe | ifIcmpGt | ifIcmpLe | goto | boxI | boxD | boxZ | unboxI | unboxD |
  unboxZ | objEq | strcat | tostrI | tostrD | tostrZ | tostrA | getstatic | putstatic |
  invokestatic | invokehost | invokehostvirtual | gethostfield | newhost | closure | apply |
  getexport | newlist | listCons | listIsEmpty | listHead | listTail | new | instanceof |
  getpayload | printI | printD | printZ | printA | matchfail | ireturn | dreturn | areturn |
  vreturn
  deriving DecidableEq, Repr, Inhabited

inductive Operands where
  | none
  | byte
  | slot
  | constant
  | jump
  | count
  | closure
  deriving DecidableEq, Repr

namespace Opcode

def all : Array Opcode := #[
    .iconst, .dconst, .sconst, .zconst, .unit, .iload, .dload, .aload, .istore, .dstore,
    .astore, .pop, .pop2, .dup, .iadd, .isub, .imul, .idiv, .irem, .ineg, .dadd, .dsub, .dmul,
    .ddiv, .drem, .dneg, .i2d, .dcmp, .ifEq, .ifNe, .ifLt, .ifGe, .ifGt, .ifLe, .ifIcmpEq,
    .ifIcmpNe, .ifIcmpLt, .ifIcmpGe, .ifIcmpGt, .ifIcmpLe, .goto, .boxI, .boxD, .boxZ, .unboxI,
    .unboxD, .unboxZ, .objEq, .strcat, .tostrI, .tostrD, .tostrZ, .tostrA, .getstatic,
    .putstatic, .invokestatic, .invokehost, .invokehostvirtual, .gethostfield, .newhost,
    .closure, .apply, .getexport, .newlist, .listCons, .listIsEmpty, .listHead, .listTail, .new,
    .instanceof, .getpayload, .printI, .printD, .printZ, .printA, .matchfail, .ireturn,
    .dreturn, .areturn, .vreturn]

def code (op : Opcode) : UInt8 := op.ctorIdx.toUInt8

def ofCode? (b : UInt8) : Option Opcode := all[b.toNat]?

theorem ofCode?_code (op : Opcode) : ofCode? op.code = some op := by
  cases op <;> rfl

def name : Opcode → String
  | iconst => "ICONST"
  | dconst => "DCONST"
  | sconst => "SCONST"
  | zconst => "ZCONST"
  | unit => "UNIT"
  | iload => "ILOAD"
  | dload => "DLOAD"
  | aload => "ALOAD"
  | istore => "ISTORE"
  | dstore => "DSTORE"
  | astore => "ASTORE"
  | pop => "POP"
  | pop2 => "POP2"
  | dup => "DUP"
  | iadd => "IADD"
  | isub => "ISUB"
  | imul => "IMUL"
  | idiv => "IDIV"
  | irem => "IREM"
  | ineg => "INEG"
  | dadd => "DADD"
  | dsub => "DSUB"
  | dmul => "DMUL"
  | ddiv => "DDIV"
  | drem => "DREM"
  | dneg => "DNEG"
  | i2d => "I2D"
  | dcmp => "DCMP"
  | ifEq => "IFEQ"
  | ifNe => "IFNE"
  | ifLt => "IFLT"
  | ifGe => "IFGE"
  | ifGt => "IFGT"
  | ifLe => "IFLE"
  | ifIcmpEq => "IF_ICMPEQ"
  | ifIcmpNe => "IF_ICMPNE"
  | ifIcmpLt => "IF_ICMPLT"
  | ifIcmpGe => "IF_ICMPGE"
  | ifIcmpGt => "IF_ICMPGT"
  | ifIcmpLe => "IF_ICMPLE"
  | goto => "GOTO"
  | boxI => "BOX_I"
  | boxD => "BOX_D"
  | boxZ => "BOX_Z"
  | unboxI => "UNBOX_I"
  | unboxD => "UNBOX_D"
  | unboxZ => "UNBOX_Z"
  | objEq => "OBJ_EQ"
  | strcat => "STRCAT"
  | tostrI => "TOSTR_I"
  | tostrD => "TOSTR_D"
  | tostrZ => "TOSTR_Z"
  | tostrA => "TOSTR_A"
  | getstatic => "GETSTATIC"
  | putstatic => "PUTSTATIC"
  | invokestatic => "INVOKESTATIC"
  | invokehost => "INVOKEHOST"
  | invokehostvirtual => "INVOKEHOSTVIRTUAL"
  | gethostfield => "GETHOSTFIELD"
  | newhost => "NEWHOST"
  | closure => "CLOSURE"
  | apply => "APPLY"
  | getexport => "GETEXPORT"
  | newlist => "NEWLIST"
  | listCons => "LIST_CONS"
  | listIsEmpty => "LIST_ISEMPTY"
  | listHead => "LIST_HEAD"
  | listTail => "LIST_TAIL"
  | new => "NEW"
  | instanceof => "INSTANCEOF"
  | getpayload => "GETPAYLOAD"
  | printI => "PRINT_I"
  | printD => "PRINT_D"
  | printZ => "PRINT_Z"
  | printA => "PRINT_A"
  | matchfail => "MATCHFAIL"
  | ireturn => "IRETURN"
  | dreturn => "DRETURN"
  | areturn => "ARETURN"
  | vreturn => "RETURN"

def operands : Opcode → Operands
  | zconst | strcat => .byte
  | iload | dload | aload | istore | dstore | astore => .slot
  | iconst | dconst | sconst | getstatic | putstatic | invokestatic | invokehost
  | invokehostvirtual | gethostfield | newhost | getexport | new | instanceof => .constant
  | ifEq | ifNe | ifLt | ifGe | ifGt | ifLe | ifIcmpEq | ifIcmpNe | ifIcmpLt | ifIcmpGe
  | ifIcmpGt | ifIcmpLe | goto => .jump
  | newlist => .count
  | closure => .closure
  | _ => .none

end Opcode

def Operands.width : Operands → Nat
  | none => 1
  | byte => 2
  | slot | constant | jump | count => 3
  | closure => 4

def Opcode.width (op : Opcode) : Nat := op.operands.width

end StackML
