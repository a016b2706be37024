import StackML.Codegen.Instr
import StackML.Codegen.Pool
import StackML.Machine.Descriptor
import StackML.Ty.Specialization
import StackML.Typing.Module

/-!
What code generation carries along: the method under construction, the pool, the methods finished
so far and the specializations still to be compiled.
-/

namespace StackML.Codegen

inductive Error where
  | diagnostic (diagnostic : Diagnostic)
  | defect (defect : Defect)

structure Specialization where
  fn : Typing.Function
  name : String
  type : Ty
  mapping : Mapping := []

structure State where
  /-- The locals and the current line of the method under construction. -/
  locals : LocalTable := {}
  line : Int := 0
  pool : Pool := {}
  /-- Finished methods and fields, latest first. -/
  methods : List Method := []
  fields : List Field := []
  /-- The names of all methods that are compiled or waiting. -/
  queued : List String := []
  work : List Specialization := []
  /-- The polymorphic functions that have a specialization. -/
  specialized : List String := []
  lambdas : Nat := 0
  factories : List String := []

abbrev Gen := EStateM Error State

/-- What a method is compiled in: the checked module, the types that stand for the variables of the
function being specialized, and the locals of the enclosing methods. -/
structure Context where
  checked : Typing.Checked
  mapping : Mapping := []
  outer : List LocalTable := []

namespace Context

def module (ctx : Context) : String := ctx.checked.module.name

def typeOf (ctx : Context) (n : Typing.Typed) : Ty := n.type.replace ctx.mapping

end Context

def fail {α : Type} (d : Defect) : Gen α := throw (.defect d)

def liftDefect {α : Type} : Except Defect α → Gen α
  | .ok a => pure a
  | .error d => fail d

def repOf (ctx : Context) (n : Typing.Typed) : Gen Rep := liftDefect (Rep.ofTy (ctx.typeOf n))

/-! ### Instructions -/

def emitWith (op : Opcode) (operand : Operand) : Gen Fragment := do
  pure [⟨op, operand, (← get).line⟩]

def emit (op : Opcode) : Gen Fragment := emitWith op .none

def jump (op : Opcode) : Gen (Nat → Instr) := do
  let line := (← get).line
  pure fun distance => ⟨op, .jump distance, line⟩

def atLine (n : Typing.Typed) : Gen Unit :=
  if n.position.isKnown then modify fun s => { s with line := n.position.line } else pure ()

/-- The index of a constant. The pool is taken out of the state while it changes, so that it is not
copied. -/
def constant (ctx : Context) (k : Constant) : Gen Nat := do
  let pool ← modifyGet fun s => (s.pool, { s with pool := {} })
  match pool.add k with
  | some (i, pool) =>
    modify fun s => { s with pool }
    pure i
  | none => fail (.poolOverflow ctx.module)

def emitConst (ctx : Context) (op : Opcode) (k : Constant) : Gen Fragment := do
  let i ← constant ctx k
  emitWith op (.word i)

def methodRef (ctx : Context) (name descriptor : String) : Constant :=
  { kind := .method, owner := ctx.module, name := name, descriptor := descriptor }

def emitClosure (ctx : Context) (k : Constant) (captures : Nat) : Gen Fragment := do
  let i ← constant ctx k
  emitWith .closure (.closure i captures)

def loadOp : Rep → Opcode
  | .int | .bool => .iload
  | .double => .dload
  | _ => .aload

def storeOp : Rep → Opcode
  | .int | .bool => .istore
  | .double => .dstore
  | _ => .astore

def returnOp : Rep → Opcode
  | .int | .bool => .ireturn
  | .double => .dreturn
  | .ref => .areturn
  | .void => .vreturn

def load (l : Local) : Gen Fragment := emitWith (loadOp l.repr) (.word l.slot)

def store (l : Local) : Gen Fragment := emitWith (storeOp l.repr) (.word l.slot)

def drop (r : Rep) : Gen Fragment :=
  match r.width with
  | 1 => emit .pop
  | 2 => emit .pop2
  | _ => pure []

/-- Converts a reference on the stack to another representation. -/
def unbox : Rep → Gen Fragment
  | .ref => pure []
  | .int => emit .unboxI
  | .bool => emit .unboxZ
  | .double => emit .unboxD
  | .void => emit .pop

/-- Converts the value on the stack from one representation to another by boxing or unboxing. -/
def coerce (source target : Rep) : Gen Fragment :=
  match source, target with
  | .void, .void => pure []
  | .void, _ => do
    let u ← emit .unit
    pure (u ++ (← unbox target))
  | _, .void => drop source
  | .ref, _ => unbox target
  | .int, .ref => emit .boxI
  | .bool, .ref => emit .boxZ
  | .double, .ref => emit .boxD
  | .int, .int | .bool, .bool | .double, .double | .int, .bool | .bool, .int => pure []
  | .double, _ | _, .double => fail (.noConversion source.name target.name)

/-- The code of a node, with its value converted to a representation. -/
def asRep (ctx : Context) (n : Typing.Typed) (target : Rep) (code : Gen Fragment) :
    Gen Fragment := do
  let source ← repOf ctx n
  let code ← code
  pure (code ++ (← coerce source target))

/-- Leaves true when a conditional jump is taken, and false otherwise. -/
def boolFromJump (op : Opcode) : Gen Fragment := do
  let taken ← jump op
  let no ← emitWith .zconst (.byte 0)
  let pass ← jump .goto
  let yes ← emitWith .zconst (.byte 1)
  let otherwise := no ++ [pass yes.size]
  pure (taken (Fragment.size otherwise) :: otherwise ++ yes)

/-! ### Locals and scopes -/

def define (name : String) (r : Rep) : Gen Local := do
  let s ← get
  let (l, locals) := s.locals.define name r
  set { s with locals }
  pure l

def inScope {α : Type} (code : Gen α) : Gen α := do
  let mark := (← get).locals.checkpoint
  let a ← code
  modify fun s => { s with locals := s.locals.rollback mark }
  pure a

/-! ### Methods -/

def addMethod (m : Method) : Gen Unit := modify fun s => { s with methods := m :: s.methods }

def methodOf (name descriptor : String) (maxLocals : Nat) (code : Fragment) : Method :=
  let bytes := code.assemble
  { name := name, descriptor := descriptor, maxLocals := .ofNat maxLocals
    code := (bytes.map (·.1)).toArray
    lines := (bytes.map fun b => Int64.ofInt b.2).toArray }

/-- Compiles the code of another method, at the given line and with no locals yet; the method under
construction is set aside meanwhile. -/
def separately {α : Type} (line : Int) (code : Gen α) : Gen α := do
  let before ← get
  set { before with locals := {}, line }
  let a ← code
  modify fun s => { s with locals := before.locals, line := before.line }
  pure a

/-- The body of a method, which returns its value in the given representation. A jump that is too
far is an error. -/
def bodyCode (ctx : Context) (n : Typing.Typed) (result : Rep) (code : Gen Fragment) :
    Gen Fragment := do
  let code ← asRep ctx n result code
  let code := code ++ (← emit (returnOp result))
  if code.any Instr.isFar then fail .jumpTooFar
  pure code

/-! ### Specializations -/

def enqueue (s : Specialization) : Gen Unit :=
  modify fun st =>
    if st.queued.contains s.name then st
    else { st with queued := s.name :: st.queued, work := st.work ++ [s] }

def withDefaults (body : Ty) (m : Mapping) : Mapping :=
  body.numericIds.foldl (fun m id => if (m.get? id).isSome then m else (id, .int) :: m) m

/-- The method that implements a polymorphic function at a type, and the type it is compiled at. It
is queued if it is new. -/
def specialize (fn : Typing.Function) (t : Ty) : Gen (String × Ty) := do
  let body := fn.type.body
  let (fits, m) := body.matchWith t []
  if !fits then fail (.noInstance fn.decl.name fn.type t)
  let m := withDefaults body m
  let type := body.replace m
  let name := type.specializedName fn.decl.name fn.arity
  modify fun s =>
    if s.queued.contains name then s else { s with specialized := fn.decl.name :: s.specialized }
  enqueue { fn, name, type, mapping := m }
  pure (name, type)

def target (fn : Typing.Function) (t : Ty) : Gen (String × Ty) :=
  if fn.isPolymorphic then specialize fn t else pure (fn.decl.name, fn.type)

/-- The one method of a polymorphic function that is used nowhere. -/
def defaulted (fn : Typing.Function) : Specialization :=
  let body := fn.type.body
  let m := withDefaults body []
  { fn, name := fn.decl.name, type := body.replace m, mapping := m }

end StackML.Codegen
