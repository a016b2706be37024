import StackML.Host.Functions
import StackML.NameMap

/-!
What programs are linked with when they run: functions and values by key, and the types of which
objects can be made.
-/

namespace StackML.Host

structure ObjectType where
  name : Text
  make : Object

structure Registry where
  functions : NameMap Native := .empty
  fields : NameMap Value := .empty
  types : NameMap ObjectType := .empty

namespace Registry

def wellKnown : Registry where
  functions := wellKnownFunctions.foldl (fun m (k, f) => m.insert k f) .empty
  fields := wellKnownFields.foldl (fun m (k, v) => m.insert k v) .empty
  types := NameMap.empty.insert "strings.Builder" ⟨"*strings.Builder", .builder {}⟩

def call (r : Registry) (key : String) (args : List Value) (h : Heap) :
    Except Text Value × Heap :=
  match r.functions.get? key with
  | some f => f.call key args h
  | none => (.error (.concat ["host function ", key, " is not linked"]), h)

/-- Calls a method. A function of the owner that has the receiver as its first argument goes before
the methods of the receiver itself. -/
def callMethod (r : Registry) (owner : String) (receiver : Value) (member : String)
    (args : List Value) (h : Heap) : Except Text Value × Heap :=
  let key := owner ++ "." ++ member
  match r.functions.get? key with
  | some f => f.call key (receiver :: args) h
  | none =>
    match receiver with
    | .null => (.error (.concat ["host method ", key, " called on unit"]), h)
    | v =>
      match valueMethod? h v member with
      | some f => f.call key args h
      | none =>
        (.error (.concat ["host value ", v.typeName, " has no method ", member]), h)

def field (r : Registry) (key : String) : Except Text Value :=
  match r.fields.get? key with
  | some v => .ok v
  | none => .error (.concat ["host field ", key, " is not linked"])

def new (r : Registry) (name : String) (h : Heap) : Except Text Value × Heap :=
  match r.types.get? name with
  | some t =>
    let (ref, h) := h.add t.make
    (.ok (.object ref t.name), h)
  | none => (.error (.concat ["host type ", name, " is not linked"]), h)

def notAFunction (owner member : String) (v : Value) : Text :=
  .concat ["host ", owner, ".", member, ": ", v.typeName, " is not a function"]

end Registry
end StackML.Host
