import Std.Data.TreeMap
import StackML.Host.Registry
import StackML.Machine.Fault
import StackML.Names

/-!
The machine: an operand stack of words, the frames of the running methods, and the modules loaded
so far with their fields. Words above the height of the stack keep what was last in them. A module
that is loaded again gets a number of its own, so that running code keeps the module it came from.
-/

namespace StackML

structure Word where
  data : UInt64 := 0
  ref : Value := .null
  deriving Inhabited, Repr

namespace Word

def ofInt (v : Int64) : Word := { data := v.toUInt64 }

def ofBool (b : Bool) : Word := { data := if b then 1 else 0 }

def ofValue (v : Value) : Word := { ref := v }

def toInt (w : Word) : Int64 := w.data.toInt64

def toBool (w : Word) : Bool := w.data != 0

end Word

structure Frame where
  code : Code
  ip : Nat := 0
  base : Nat
  boxResult : Bool
  deriving Inhabited

structure LinkedMethod where
  method : Method
  signature : Except Descriptor.Error Descriptor.Signature

structure Instance where
  name : Text
  constants : Array Constant
  methods : Std.TreeMap Text LinkedMethod compare := {}
  holders : Std.TreeMap Text Artifact compare := {}
  fields : Std.TreeMap Text Value compare := {}
  initialized : Bool := false

instance : Inhabited Instance := ⟨{ name := .empty, constants := #[] }⟩

/-- A loaded module from its artifact and those of its constructors; of two of one name the later
one counts. -/
def Instance.ofArtifacts (module : Artifact) (holders : List Artifact) : Instance where
  name := module.name
  constants := module.constants
  methods := module.methods.foldl (fun t m =>
    t.insert m.name ⟨m, Descriptor.parse m.descriptor⟩) {}
  holders := holders.foldl (fun t h => t.insert h.name h) {}

/-- What supplies modules that are not loaded yet, or says why it cannot. -/
abbrev Loader := Text → Except Text (List Artifact)

structure Setup where
  maxFrames : Int := 4096
  registry : Host.Registry := .wellKnown
  loader : Option Loader := none

/-- Whether a run is cancelled, as each look at its context from the next one on will find. -/
def Signal : Type := Nat → Bool

namespace Signal

instance : Coe Bool Signal := ⟨fun answer _ => answer⟩

def next (s : Signal) : Bool := s 0

def rest (s : Signal) : Signal := fun n => s (n + 1)

end Signal

structure Machine where
  stack : Array Word := Array.replicate 1024 {}
  height : Nat := 0
  /-- Frames, innermost first, and their number. -/
  frames : List Frame := []
  depth : Nat := 0
  instances : Array Instance := #[]
  /-- The number of the latest module of each name. -/
  modules : Std.TreeMap Text Nat compare := {}
  heap : Host.Heap := {}
  /-- What was printed, latest first. -/
  output : List Text := []
  /-- How many functions were made. -/
  functions : Nat := 0
  cancelled : Signal := false

inductive Halt where
  | fault (fault : Fault)
  | cancelled
  | outOfSteps

abbrev Exec := EStateM Halt Machine

namespace Machine

def maxStack : Nat := 1048576

def locate (m : Machine) (issue : FaultIssue) : Fault :=
  match m.frames with
  | [] => { issue }
  | f :: _ =>
    let line := if f.ip = 0 then 0 else f.code.method.lines.getD (f.ip - 1) 0
    { issue, method := .concat [f.code.module, ".", f.code.method.name], line }

def raise {α : Type} (issue : FaultIssue) : Exec α := fun m =>
  .error (.fault (m.locate issue)) m

/-! ### The stack -/

/-- Pushes a word; the stack doubles when it is full, up to its limit. -/
def push (w : Word) : Exec Unit := fun m =>
  if m.height < m.stack.size then
    .ok () { m with stack := m.stack.setIfInBounds m.height w, height := m.height + 1 }
  else if maxStack ≤ m.height then raise .stackOverflow m
  else
    let more := Array.replicate (max 1024 m.stack.size) ({} : Word)
    .ok () { m with
      stack := (m.stack ++ more).setIfInBounds m.height w, height := m.height + 1 }

def pop : Exec Word := fun m =>
  if m.height = 0 then raise .stackUnderflow m
  else .ok (m.stack.getD (m.height - 1) {}) { m with height := m.height - 1 }

def pushValue (v : Value) : Exec Unit := push (.ofValue v)

def pushInt (v : Int64) : Exec Unit := push (.ofInt v)

def pushBool (b : Bool) : Exec Unit := push (.ofBool b)

def pushDouble (bits : UInt64) : Exec Unit := do
  push { data := bits }
  push {}

def popValue : Exec Value := do pure (← pop).ref

def popInt : Exec Int64 := do pure (← pop).toInt

def popDouble : Exec UInt64 := do
  let _ ← pop
  pure (← pop).data

def pushUnboxed (r : Rep) (v : Value) : Exec Unit :=
  match r, v with
  | .int, .int n => pushInt n
  | .bool, .bool b => pushBool b
  | .double, .double bits => pushDouble bits
  | .int, v | .bool, v | .double, v => raise (.wrongBox r v.typeName)
  | .ref, v | .void, v => pushValue v

def popBoxed : Rep → Exec Value
  | .int => do pure (.int (← popInt))
  | .bool => do pure (.bool (← pop).toBool)
  | .double => do pure (.double (← popDouble))
  | .ref => popValue
  | .void => pure .unit

def popAll : List Rep → Exec (List Value)
  | [] => pure []
  | r :: rs => do
    let vs ← popAll rs
    let v ← popBoxed r
    pure (v :: vs)

/-- Pops references, the last one first, in front of those already popped. -/
def popValues : Nat → List Value → Exec (List Value)
  | 0, vs => pure vs
  | n + 1, vs => do
    let v ← popValue
    popValues n (v :: vs)

/-! ### Frames -/

def pushEmpty : Nat → Exec Unit
  | 0 => pure ()
  | n + 1 => do
    push {}
    pushEmpty n

/-- How many empty words stand between the arguments of a method and its operands. The end of its
locals is a word like any other and wraps around. -/
def missingLocals (base height : Nat) (maxLocals : Int64) : Nat :=
  ((Int64.ofNat base + maxLocals).toInt - height).toNat

def enter (setup : Setup) (code : Code) (boxResult : Bool) : Exec Unit := do
  let m ← get
  if setup.maxFrames ≤ m.depth then raise (.tooDeep setup.maxFrames)
  if m.height < code.signature.words then raise .stackUnderflow
  let base := m.height - code.signature.words
  pushEmpty (missingLocals base m.height code.method.maxLocals)
  modify fun m => { m with
    frames := { code, base, boxResult } :: m.frames, depth := m.depth + 1 }

def popWords : Nat → List Word → Exec (List Word)
  | 0, ws => pure ws
  | n + 1, ws => do
    let w ← pop
    popWords n (w :: ws)

def box (r : Rep) (words : List Word) : Value :=
  let w := words.headD {}
  match r with
  | .int => .int w.toInt
  | .bool => .bool w.toBool
  | .double => .double w.data
  | .ref => w.ref
  | .void => .unit

/-- Leaves the current method and moves its result to where its locals began. -/
def leave (r : Rep) : Exec Unit := do
  let words ← popWords r.width []
  match (← get).frames with
  | [] => raise .stackUnderflow
  | f :: rest =>
    modify fun m => { m with frames := rest, depth := m.depth - 1, height := f.base }
    if f.boxResult then pushValue (box r words) else words.forM push

/-! ### Reading code -/

def advance (n : Nat) : Exec Unit :=
  modify fun m =>
    match m.frames with
    | [] => m
    | f :: rest => { m with frames := { f with ip := f.ip + n } :: rest }

def readByte : Exec Nat := fun m =>
  match m.frames with
  | [] => raise .truncatedCode m
  | f :: rest =>
    if h : f.ip < f.code.method.code.size then
      let b := f.code.method.code[f.ip]
      .ok b.toNat { m with frames := { f with ip := f.ip + 1 } :: rest }
    else raise .truncatedCode m

def readWord : Exec Nat := do
  let high ← readByte
  let low ← readByte
  pure (high * 256 + low)

def readConstant : Exec Constant := do
  let i ← readWord
  let m ← get
  match m.frames with
  | [] => raise .badConstant
  | f :: _ =>
    match (m.instances.getD f.code.home default).constants[i]? with
    | some k => pure k
    | none => raise .badConstant

def readSlot : Exec Nat := do
  let i ← readWord
  match (← get).frames with
  | [] => pure i
  | f :: _ => pure (f.base + i)

def wordAt (i : Nat) : Exec Word := do
  match (← get).stack[i]? with
  | some w => pure w
  | none => raise .badSlot

def setWordAt (i : Nat) (w : Word) : Exec Unit := fun m =>
  if i < m.stack.size then .ok () { m with stack := m.stack.setIfInBounds i w }
  else raise .badSlot m

def printValue (v : Value) : Exec Unit :=
  modify fun m => { m with output := (v.text m.heap.text ++ "\n") :: m.output }

def pushClosure (code : Code) (args : List Value) : Exec Unit := fun m =>
  pushValue (.closure m.functions code args) { m with functions := m.functions + 1 }

end Machine
end StackML
