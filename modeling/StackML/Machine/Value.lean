import StackML.Machine.Artifact
import StackML.Machine.Descriptor

/-!
The boxed values of running programs. Functions carry a serial number, since two of them are equal
only when they are one and the same; objects of the host are referred to by number and live in a
store of their own. `Value.equal` is the structural equality of programs, `Value.text` what they
print.
-/

namespace StackML

/-- The class of a constructed value: the module that declares the constructor, empty for the
built-in ones, its name, sum type and position, and whether it has an argument. -/
structure HolderClass where
  owner : Text
  name : Text
  sum : Text
  tag : Int64
  hasArg : Bool
  deriving DecidableEq, Repr, Inhabited

structure Code where
  /-- The number of the loaded module it belongs to. -/
  home : Nat
  module : Text
  method : Method
  signature : Descriptor.Signature
  deriving DecidableEq, Repr, Inhabited

/-- A boxed value. `null` is a reference to nothing, which programs take for unit; a constructed
value without an argument has it as its payload. -/
inductive Value where
  | null
  | unit
  | int (value : Int64)
  | double (bits : UInt64)
  | bool (value : Bool)
  | str (value : Text)
  | list (elems : List Value)
  | holder (cls : HolderClass) (payload : Value)
  | closure (serial : Nat) (code : Code) (args : List Value)
  | object (ref : Nat) (type : Text)
  deriving Inhabited, Repr

def doubleEq (a b : UInt64) : Bool := Float.ofBits a == Float.ofBits b

namespace Value

def isUnit : Value → Bool
  | null | unit => true
  | _ => false

mutual
/-- Structural equality. Constructed values are equal when module, constructor and payload are. -/
def equal : Value → Value → Bool
  | null, b => b.isUnit
  | unit, b => b.isUnit
  | int a, int b => a == b
  | double a, double b => doubleEq a b
  | bool a, bool b => a == b
  | str a, str b => a == b
  | list as, list bs => equalAll as bs
  | holder c p, holder d q => c.owner == d.owner && c.name == d.name && equal p q
  | closure m _ _, closure n _ _ => m == n
  | object m _, object n _ => m == n
  | _, _ => false

def equalAll : List Value → List Value → Bool
  | [], [] => true
  | a :: as, b :: bs => if equal a b then equalAll as bs else false
  | _, _ => false
end

def typeName : Value → Text
  | null => "<nil>"
  | unit => "vm.UnitValue"
  | int _ => "int64"
  | double _ => "float64"
  | bool _ => "bool"
  | str _ => "string"
  | list _ => "*vm.List"
  | holder .. => "*vm.Holder"
  | closure .. => "*vm.Closure"
  | object _ type => type

mutual
/-- What printing a value shows; `objects` gives the text of a host object. -/
def text (objects : Nat → Text) : Value → Text
  | null | unit => "()"
  | int v => Text.ofInt v.toInt
  | double bits => Decimal.ofDouble bits
  | bool v => if v then "true" else "false"
  | str v => v
  | list elems => .concat ["[", .join ", " (texts objects [] elems), "]"]
  | holder cls payload =>
    if cls.hasArg then .concat [cls.name, "(", payload.text objects, ")"] else cls.name
  | closure _ code _ => .concat ["<fn ", code.module, ".", code.method.name, ">"]
  | object ref _ => objects ref

def texts (objects : Nat → Text) (done : List Text) : List Value → List Text
  | [] => done.reverse
  | v :: vs => texts objects (v.text objects :: done) vs
end

end Value
end StackML
