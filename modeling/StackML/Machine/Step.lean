import StackML.Machine.State

/-!
What each instruction does. Instructions that refer to another module may have to load it and run
its initializer to the end first; `init` is what runs it.
-/

namespace StackML.Machine

/-! ### Modules -/

/-- Takes in the artifacts of one module: one of a module, and those of its constructors. -/
def load (artifacts : List Artifact) : Exec Unit := do
  match artifacts.filter (·.kind = .module) with
  | [] => raise .noModule
  | [module] =>
    let holders := artifacts.filter (·.kind = .holder)
    modify fun m => { m with
      modules := m.modules.insert module.name m.instances.size
      instances := m.instances.push (.ofArtifacts module holders) }
  | first :: second :: _ => raise (.twoModules first.name second.name)

def instanceAt (i : Nat) : Exec Instance := do pure ((← get).instances.getD i default)

def codeOf (i : Nat) (inst : Instance) (m : LinkedMethod) : Exec Code :=
  match m.signature with
  | .ok signature => pure { home := i, module := inst.name, method := m.method, signature }
  | .error e => raise (.badMethod inst.name m.method.name e)

/-- Runs the initializer of a loaded module unless that was done before. -/
def initialized (init : Code → Exec Unit) (i : Nat) : Exec Unit := do
  let inst ← instanceAt i
  if inst.initialized then return
  modify fun m => { m with
    instances := m.instances.modify i fun inst => { inst with initialized := true } }
  match inst.methods.get? Names.initializer with
  | some m => init (← codeOf i inst m)
  | none => pure ()

/-- The number of the module of a name, which is loaded if need be and initialized. -/
def moduleOf (setup : Setup) (init : Code → Exec Unit) (name : Text) : Exec Nat := do
  let known := (← get).modules.get? name
  if known.isNone then
    match setup.loader with
    | none => raise (.notLoaded name)
    | some find =>
      match find name with
      | .error reason => raise (.loading name reason)
      | .ok artifacts => load artifacts
  match (← get).modules.get? name with
  | none => raise (.notLoaded name)
  | some i =>
    initialized init i
    pure i

/-- The module that a constant refers to; mostly it is that of the running method. -/
def ownerOf (setup : Setup) (init : Code → Exec Unit) (name : Text) : Exec Nat := do
  match (← get).frames with
  | f :: _ => if f.code.module = name then pure f.code.home else moduleOf setup init name
  | [] => moduleOf setup init name

def methodRef (setup : Setup) (init : Code → Exec Unit) (k : Constant) : Exec Code := do
  let i ← ownerOf setup init k.owner
  let inst ← instanceAt i
  match inst.methods.get? k.name with
  | none => raise (.missingMethod k.owner k.name)
  | some m =>
    if m.method.descriptor ≠ k.descriptor then
      raise (.otherDescriptor k.owner k.name m.method.descriptor k.descriptor)
    codeOf i inst m

def fieldRep (descriptor : Text) : Exec Rep :=
  match Descriptor.parse ("()" ++ descriptor) with
  | .ok s => pure s.result
  | .error e => raise (.badField e)

def getField (setup : Setup) (init : Code → Exec Unit) (k : Constant) : Exec Unit := do
  let i ← ownerOf setup init k.owner
  let r ← fieldRep k.descriptor
  match (← instanceAt i).fields.get? k.name with
  | some v => pushUnboxed r v
  | none => raise (.unsetField k.owner k.name)

def putField (setup : Setup) (init : Code → Exec Unit) (k : Constant) : Exec Unit := do
  let i ← ownerOf setup init k.owner
  let r ← fieldRep k.descriptor
  let v ← popBoxed r
  modify fun m => { m with
    instances := m.instances.modify i fun inst =>
      { inst with fields := inst.fields.insert k.name v } }

/-- Pushes an export of another module, boxed: the value of a field, the result of a function
without parameters, or a function. -/
def getExport (setup : Setup) (init : Code → Exec Unit) (k : Constant) : Exec Unit := do
  let i ← moduleOf setup init k.owner
  let inst ← instanceAt i
  match inst.fields.get? k.name with
  | some v => pushValue v
  | none =>
    match inst.methods.get? k.name with
    | none => raise (.noExport k.owner k.name)
    | some m =>
      if m.method.function.isEmpty then raise (.noExport k.owner k.name)
      let code ← codeOf i inst m
      if code.signature.params.isEmpty then enter setup code true else pushClosure code []

def holderClass (setup : Setup) (init : Code → Exec Unit) (k : Constant) : Exec HolderClass := do
  if k.owner.isEmpty then
    if k.name = Names.ok then pure ⟨.empty, k.name, Names.result, 0, true⟩
    else if k.name = Names.error then pure ⟨.empty, k.name, Names.result, 1, true⟩
    else raise (.noBuiltin k.name)
  else
    let i ← ownerOf setup init k.owner
    match (← instanceAt i).holders.get? k.name with
    | none => raise (.noConstructor k.owner k.name)
    | some a => pure ⟨k.owner, a.name, a.sum, a.tag, a.payload⟩

/-! ### Functions -/

/-- Makes a function from a method and the captured values on the stack, which leave at least one
parameter open. -/
def makeClosure (code : Code) (captures : Nat) : Exec Unit := do
  let params := code.signature.params.length
  if params ≤ captures then raise (.manyCaptures code.method.name captures params)
  let args ← popValues captures []
  pushClosure code args

def pushArgs : List Rep → List Value → Exec Unit
  | r :: rs, v :: vs => do
    pushUnboxed r v
    pushArgs rs vs
  | _, _ => pure ()

/-- Applies a function to one more argument; its method is entered once all are there. -/
def applyOne (setup : Setup) : Exec Unit := do
  let arg ← popValue
  match ← popValue with
  | .closure _ code args =>
    let args := args ++ [arg]
    if args.length < code.signature.params.length then pushClosure code args
    else
      pushArgs code.signature.params args
      enter setup code true
  | _ => raise .notAFunction

/-! ### Host members -/

def toHost : Value → Value
  | .unit => .null
  | v => v

def hostAnswer (k : Constant) (answer : Except Text Value × Host.Heap) : Exec Value := do
  modify fun m => { m with heap := answer.2 }
  match answer.1 with
  | .ok .null => pure .unit
  | .ok v => pure v
  | .error reason => raise (.hostFailed k.text reason)

def callHost (setup : Setup) (op : Opcode) (k : Constant) : Exec Unit := do
  match Descriptor.parse k.descriptor with
  | .error e => raise (.badHost k.owner k.name e)
  | .ok signature =>
    let args := (← popAll signature.params).map toHost
    let owner := k.owner.display
    let name := k.name.display
    let registry := setup.registry
    let answer ← match op with
      | .invokehostvirtual => do
        let receiver := toHost (← popValue)
        pure (registry.callMethod owner receiver name args (← get).heap)
      | .gethostfield => do pure (registry.field (owner ++ "." ++ name), (← get).heap)
      | .newhost => do pure (registry.new owner (← get).heap)
      | _ => do pure (registry.call (owner ++ "." ++ name) args (← get).heap)
    let v ← hostAnswer k answer
    if signature.result = .void then pure () else pushUnboxed signature.result v

/-! ### Arithmetic and comparison -/

def intOp (op : Opcode) (a b : Int64) : Exec Int64 :=
  match op with
  | .iadd => pure (a + b)
  | .isub => pure (a - b)
  | .imul => pure (a * b)
  | op =>
    if b = 0 then raise .divideByZero
    else if op = .idiv then pure (a / b)
    else pure (a % b)

def doubleOp (op : Opcode) (a b : Float) : Float :=
  match op with
  | .dadd => a + b
  | .dsub => a - b
  | .dmul => a * b
  | .ddiv => a / b
  | _ => Double.remainder a b

def holds (op : Opcode) (a b : Int64) : Bool :=
  match op with
  | .ifEq | .ifIcmpEq => a == b
  | .ifNe | .ifIcmpNe => a != b
  | .ifLt | .ifIcmpLt => a < b
  | .ifGe | .ifIcmpGe => b ≤ a
  | .ifGt | .ifIcmpGt => b < a
  | _ => a ≤ b

/-- -1, 0 or 1 as the first number is less than, equal to, or neither. -/
def compareDoubles (a b : Float) : Int64 := if a < b then -1 else if a == b then 0 else 1

/-! ### Lists and texts -/

def popList : Exec (List Value) := do
  match ← popValue with
  | .list vs => pure vs
  | .null => pure []
  | v => raise (.notAList v.typeName)

def popTexts : Nat → List Text → Exec Text
  | 0, parts => pure (.concat parts)
  | n + 1, parts => do
    match ← popValue with
    | .str s => popTexts n (s :: parts)
    | _ => raise .notAString

def pushText (v : Value) : Exec Unit := do
  let heap := (← get).heap
  pushValue (.str (v.text heap.text))

/-! ### The instructions -/

def step (setup : Setup) (init : Code → Exec Unit) (op : Opcode) : Exec Unit := do
  match op with
  | .iconst => pushInt (← readConstant).int
  | .dconst => pushDouble (← readConstant).bits
  | .sconst => pushValue (.str (← readConstant).str)
  | .zconst => push { data := (← readByte).toUInt64 }
  | .unit => pushValue .unit
  | .iload | .aload => push (← wordAt (← readSlot))
  | .dload =>
    let i ← readSlot
    push (← wordAt i)
    push (← wordAt (i + 1))
  | .istore | .astore =>
    let i ← readSlot
    setWordAt i (← pop)
  | .dstore =>
    let i ← readSlot
    setWordAt (i + 1) (← pop)
    setWordAt i (← pop)
  | .pop =>
    let _ ← pop
  | .pop2 =>
    let _ ← pop
    let _ ← pop
  | .dup =>
    let w ← pop
    push w
    push w
  | .iadd | .isub | .imul | .idiv | .irem =>
    let b ← popInt
    let a ← popInt
    pushInt (← intOp op a b)
  | .ineg => pushInt (-(← popInt))
  | .dadd | .dsub | .dmul | .ddiv | .drem =>
    let b ← popDouble
    let a ← popDouble
    pushDouble (doubleOp op (.ofBits a) (.ofBits b)).toBits
  | .dneg => pushDouble (-(Float.ofBits (← popDouble))).toBits
  | .i2d => pushDouble (← popInt).toFloat.toBits
  | .dcmp =>
    let b ← popDouble
    let a ← popDouble
    pushInt (compareDoubles (.ofBits a) (.ofBits b))
  | .ifEq | .ifNe | .ifLt | .ifGe | .ifGt | .ifLe =>
    let distance ← readWord
    let a ← popInt
    if holds op a 0 then advance distance
  | .ifIcmpEq | .ifIcmpNe | .ifIcmpLt | .ifIcmpGe | .ifIcmpGt | .ifIcmpLe =>
    let distance ← readWord
    let b ← popInt
    let a ← popInt
    if holds op a b then advance distance
  | .goto => advance (← readWord)
  | .boxI => pushValue (.int (← popInt))
  | .boxZ => pushValue (.bool (← pop).toBool)
  | .boxD => pushValue (.double (← popDouble))
  | .unboxI => pushUnboxed .int (← popValue)
  | .unboxZ => pushUnboxed .bool (← popValue)
  | .unboxD => pushUnboxed .double (← popValue)
  | .objEq =>
    let b ← popValue
    let a ← popValue
    pushBool (a.equal b)
  | .strcat =>
    let n ← readByte
    pushValue (.str (← popTexts n []))
  | .tostrI => pushText (.int (← popInt))
  | .tostrZ => pushText (.bool (← pop).toBool)
  | .tostrD => pushText (.double (← popDouble))
  | .tostrA => pushText (← popValue)
  | .getstatic => getField setup init (← readConstant)
  | .putstatic => putField setup init (← readConstant)
  | .invokestatic => enter setup (← methodRef setup init (← readConstant)) false
  | .invokehost | .invokehostvirtual | .gethostfield | .newhost =>
    callHost setup op (← readConstant)
  | .closure =>
    let k ← readConstant
    let captures ← readByte
    makeClosure (← methodRef setup init k) captures
  | .apply => applyOne setup
  | .getexport => getExport setup init (← readConstant)
  | .newlist =>
    let n ← readWord
    pushValue (.list (← popValues n []))
  | .listCons =>
    let tail ← popList
    let head ← popValue
    pushValue (.list (head :: tail))
  | .listIsEmpty => pushBool (← popList).isEmpty
  | .listHead =>
    match ← popList with
    | [] => raise (.emptyList op)
    | head :: _ => pushValue head
  | .listTail =>
    match ← popList with
    | [] => raise (.emptyList op)
    | _ :: tail => pushValue (.list tail)
  | .new =>
    let cls ← holderClass setup init (← readConstant)
    if cls.hasArg then pushValue (.holder cls (← popValue)) else pushValue (.holder cls .null)
  | .instanceof =>
    let k ← readConstant
    match ← popValue with
    | .holder cls _ => pushBool (cls.owner = k.owner ∧ cls.name = k.name)
    | _ => pushBool false
  | .getpayload =>
    match ← popValue with
    | .holder cls payload => if cls.hasArg then pushValue payload else raise .noPayload
    | _ => raise .noPayload
  | .printI => printValue (.int (← popInt))
  | .printZ => printValue (.bool (← pop).toBool)
  | .printD => printValue (.double (← popDouble))
  | .printA => printValue (← popValue)
  | .matchfail => raise .noCase
  | .ireturn =>
    match (← get).frames with
    | [] => raise .stackUnderflow
    | f :: _ => leave f.code.signature.result
  | .dreturn => leave .double
  | .areturn => leave .ref
  | .vreturn => leave .void

end StackML.Machine
