import StackML.Machine.Step

/-!
Running code. `execute` goes on until as many frames are left as there were; it has a bound on its
steps, which the runs below set far beyond reach. A run that ends early leaves the stack and the
frames as it found them.
-/

namespace StackML.Machine

/-- After this many instructions it is seen whether the run was cancelled. -/
def checkInterval : Nat := 1000

def fetch : Exec Opcode := do
  match (← get).frames with
  | [] => raise .endOfMethod
  | f :: _ =>
    if f.code.method.code.size ≤ f.ip then raise .endOfMethod
    let b ← readByte
    match Opcode.ofCode? b.toUInt8 with
    | some op => pure op
    | none => raise (.unknownOpcode b.toUInt8)

/-- Runs a method to its end with boxed arguments and gives its boxed result; `run` executes until
the given number of frames is left. -/
def invokeBy (run : (stop : Nat) → Exec Unit) (setup : Setup) (code : Code) (args : List Value) :
    Exec Value := do
  let expected := code.signature.params.length
  if args.length ≠ expected then
    raise (.arity code.module code.method.name expected args.length)
  let depth := (← get).depth
  pushArgs code.signature.params args
  enter setup code true
  run depth
  popValue

def look : Exec Unit := do
  let m ← get
  modify fun m => { m with cancelled := m.cancelled.rest }
  if m.cancelled.next then throw .cancelled

/-- The look after every so many instructions; `count` of them were executed since the last one. -/
def glance (count : Nat) : Exec Unit := if checkInterval ≤ count + 1 then look else pure ()

/-- The number of instructions since the last look, after one more. -/
def counted (count : Nat) : Nat := if checkInterval ≤ count + 1 then 0 else count + 1

/-- Executes instructions until `stop` frames are left; `count` of them were executed since the last
look at the cancellation. -/
def execute (setup : Setup) : (steps : Nat) → (stop count : Nat) → Exec Unit
  | 0, _, _ => throw .outOfSteps
  | steps + 1, stop, count => do
    let m ← get
    if m.depth ≤ stop then return
    glance count
    let op ← fetch
    step setup (fun code => do
      let _ ← invokeBy (fun stop => execute setup steps stop 0) setup code []) op
    execute setup steps stop (counted count)

def endless : Nat := Nat.pow 2 60

/-- Runs a method of a loaded module with boxed arguments and gives its boxed result. -/
def invoke (setup : Setup) (steps : Nat) (code : Code) (args : List Value) : Exec Value :=
  invokeBy (fun stop => execute setup steps stop 0) setup code args

def runInitializer (setup : Setup) (steps : Nat) (code : Code) : Exec Unit := do
  let _ ← invoke setup steps code []

/-- A run from outside: after a failure the stack and the frames are as they were before. -/
def guarded {α : Type} (run : Exec α) : Exec α := fun m =>
  let (height, frames, depth) := (m.height, m.frames, m.depth)
  match run m with
  | .ok a m => .ok a m
  | .error e m => .error e { m with height, frames, depth }

/-- Evaluates the main expression of a module within the given number of steps; a module without one
gives unit. -/
def runModuleWithin (steps : Nat) (setup : Setup) (name : Text) : Exec Value := guarded do
  let i ← moduleOf setup (runInitializer setup steps) name
  let inst ← instanceAt i
  match inst.methods.get? Names.entry with
  | some m => invoke setup steps (← codeOf i inst m) []
  | none => pure .unit

def runModule : Setup → Text → Exec Value := runModuleWithin endless

def callMethod (setup : Setup) (module method : Text) (args : List Value) : Exec Value :=
  guarded do
    let i ← moduleOf setup (runInitializer setup endless) module
    let inst ← instanceAt i
    match inst.methods.get? method with
    | some m => invoke setup endless (← codeOf i inst m) args
    | none => raise (.noMethod module method)

def fieldValue (setup : Setup) (module name : Text) : Exec Value := guarded do
  let i ← moduleOf setup (runInitializer setup endless) module
  match (← instanceAt i).fields.get? name with
  | some v => pure v
  | none => raise (.noField module name)

end StackML.Machine
