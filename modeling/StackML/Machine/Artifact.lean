import StackML.Decimal.Notation
import StackML.Text.Quoted

/-!
Compiled code. A module artifact has methods, fields and the constants its instructions refer to by
index; a holder artifact describes one constructor of a sum type. All of it can come from a file, so
texts are byte texts and numbers are machine words.
-/

namespace StackML

structure ConstantKind where
  code : Int64
  deriving DecidableEq, Repr, Inhabited

namespace ConstantKind

def int : ConstantKind := ⟨0⟩
def double : ConstantKind := ⟨1⟩
def string : ConstantKind := ⟨2⟩
def method : ConstantKind := ⟨3⟩
def field : ConstantKind := ⟨4⟩
def holder : ConstantKind := ⟨5⟩
def host : ConstantKind := ⟨6⟩
def exported : ConstantKind := ⟨7⟩

def label (k : ConstantKind) : String :=
  if k = int then "int"
  else if k = double then "double"
  else if k = string then "string"
  else if k = method then "method"
  else if k = field then "field"
  else if k = holder then "holder"
  else if k = host then "host"
  else "export"

end ConstantKind

/-- A constant. Which parts count depends on the kind: a number, the bits of a double, a text, or
the owner, name and descriptor of what is referred to. -/
structure Constant where
  kind : ConstantKind
  int : Int64 := 0
  bits : UInt64 := 0
  str : Text := .empty
  owner : Text := .empty
  name : Text := .empty
  descriptor : Text := .empty
  deriving DecidableEq, Repr, Inhabited

namespace Constant

def hexText (n : Nat) : Text := String.ofList (Nat.toDigits 16 n)

def key (c : Constant) : Text :=
  if c.kind = .int then .concat ["i:", Text.ofInt c.int.toInt]
  else if c.kind = .double then .concat ["d:", hexText c.bits.toNat]
  else if c.kind = .string then .concat ["s:", c.str]
  else if c.kind = .host then
    .concat ["h:", Text.ofInt c.int.toInt, ":", c.owner, ".", c.name, c.descriptor]
  else .concat [Text.ofInt c.kind.code.toInt, ":", c.owner, ".", c.name, c.descriptor]

def text (c : Constant) : Text :=
  if c.kind = .int then Text.ofInt c.int.toInt
  else if c.kind = .double then Decimal.ofDouble c.bits
  else if c.kind = .string then c.str.quoted
  else if c.kind = .holder ∧ c.owner = .empty then c.name
  else if c.kind = .host ∧ c.name = .empty then .concat ["new ", c.owner, c.descriptor]
  else .concat [c.owner, ".", c.name, c.descriptor]

end Constant

/-- A method: its descriptor, the local words it needs, its code and the source line of each byte
of it. `function` and `signature` say which top-level function it implements and at which type; they
are empty for all others. -/
structure Method where
  name : Text := .empty
  descriptor : Text := .empty
  maxLocals : Int64 := 0
  code : Array UInt8 := #[]
  lines : Array Int64 := #[]
  function : Text := .empty
  signature : Text := .empty
  deriving DecidableEq, Repr, Inhabited

structure Field where
  name : Text := .empty
  descriptor : Text := .empty
  deriving DecidableEq, Repr, Inhabited

structure ArtifactKind where
  code : Int64
  deriving DecidableEq, Repr, Inhabited

namespace ArtifactKind

def module : ArtifactKind := ⟨0⟩
def holder : ArtifactKind := ⟨1⟩

def label (k : ArtifactKind) : String := if k = holder then "holder" else "module"

end ArtifactKind

/-- A unit of code. For a holder, `sum` is the sum type, `tag` the position of the constructor in
it and `payload` says whether it has an argument. -/
structure Artifact where
  name : Text := .empty
  kind : ArtifactKind := .module
  sum : Text := .empty
  tag : Int64 := 0
  payload : Bool := false
  constants : Array Constant := #[]
  methods : List Method := []
  fields : List Field := []
  deriving DecidableEq, Repr, Inhabited

namespace Artifact

def method? (a : Artifact) (name : Text) : Option Method := a.methods.find? (·.name = name)

def field? (a : Artifact) (name : Text) : Option Field := a.fields.find? (·.name = name)

end Artifact
end StackML
