import StackML.Double.Basic
import StackML.Host.Object

/-!
Functions that the host implements. Arguments are converted to the kinds of the parameters before
the call; a reply has values, or the failure or panic that took their place.
-/

namespace StackML.Host

inductive ParamKind where
  | int
  | int32
  | uint8
  | float64
  | float32
  | bool
  | string
  | bytes
  | any
  deriving DecidableEq, Repr

namespace ParamKind

def name : ParamKind → String
  | int => "int"
  | int32 => "int32"
  | uint8 => "uint8"
  | float64 => "float64"
  | float32 => "float32"
  | bool => "bool"
  | string => "string"
  | bytes => "[]uint8"
  | any => "interface {}"

def zero : ParamKind → Value
  | int | int32 | uint8 => .int 0
  | float64 | float32 => .double 0
  | bool => .bool false
  | string | bytes => .str .empty
  | any => .null

def narrow (k : ParamKind) (v : Int64) : Value :=
  match k with
  | int32 => .int v.toInt32.toInt64
  | uint8 => .int v.toUInt64.toUInt8.toUInt64.toInt64
  | _ => .int v

def single (x : Float) : Float := x.toFloat32.toFloat

/-- The text with the one character of a code, or the replacement character if there is none. -/
def charText (code : Int64) : Text :=
  let n := code.toInt
  if 0 ≤ n ∧ n < 0x110000 ∧ ¬ (0xD800 ≤ n ∧ n < 0xE000) then
    String.singleton (Char.ofNat n.toNat)
  else "\uFFFD"

def ofInt (k : ParamKind) (v : Int64) : Option Value :=
  match k with
  | int | int32 | uint8 => some (k.narrow v)
  | float64 => some (.double v.toFloat.toBits)
  | float32 => some (.double (single v.toFloat).toBits)
  | string => some (.str (charText v))
  | any => some (.int v)
  | bool | bytes => none

def ofDouble (k : ParamKind) (bits : UInt64) : Option Value :=
  let x := Float.ofBits bits
  match k with
  | int | int32 | uint8 => some (k.narrow (Double.truncate x))
  | float64 | any => some (.double bits)
  | float32 => some (.double (single x).toBits)
  | bool | string | bytes => none

def convert? (k : ParamKind) (v : Value) : Option Value :=
  match v with
  | .null => some k.zero
  | .int n => k.ofInt n
  | .double bits => k.ofDouble bits
  | .bool b => if k = bool ∨ k = any then some (.bool b) else none
  | .str s => if k = string ∨ k = bytes ∨ k = any then some (.str s) else none
  | v => if k = any then some v else none

end ParamKind

inductive Reply where
  | values (values : List Value)
  | failed (reason : Text)
  | panicked (reason : Text)

structure Native where
  params : List ParamKind
  variadic : Bool := false
  run : List Value → Heap → Reply × Heap

def convertArgs (key : Text) : (index : Nat) → List ParamKind → List Value →
    Except Text (List Value)
  | index, k :: ks, v :: vs =>
    match k.convert? v with
    | none =>
      .error (.concat ["host ", key, " argument ", Text.ofNat index, ": cannot use ", v.typeName,
        " as ", k.name])
    | some v => do
      let rest ← convertArgs key (index + 1) ks vs
      pure (v :: rest)
  | _, _, _ => .ok []

def Reply.value (key : Text) : Reply → Except Text Value
  | values [] => .ok .null
  | values [v] => .ok v
  | values vs => .error (.concat ["host ", key, " returns ", Text.ofNat vs.length, " values"])
  | failed reason => .error (.concat ["host ", key, ": ", reason])
  | panicked reason => .error (.concat ["host ", key, " panicked: ", reason])

def Native.call (f : Native) (key : Text) (args : List Value) (h : Heap) :
    Except Text Value × Heap :=
  if f.variadic ∨ f.params.length ≠ args.length then
    (.error (.concat ["host ", key, " takes ", Text.ofNat f.params.length, " arguments, got ",
      Text.ofNat args.length]), h)
  else
    match convertArgs key 1 f.params args with
    | .error e => (.error e, h)
    | .ok args =>
      let (reply, h) := f.run args h
      (reply.value key, h)

end StackML.Host
