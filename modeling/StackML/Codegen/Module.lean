import StackML.Codegen.Expr

/-!
Compilation of checked modules. Functions that are not polymorphic and the recorded uses of the
others are queued first; then come the initializer and the main expression, and then the queue until
it is empty. A polymorphic function that is used nowhere is compiled once, its numeric variables
taken for `int`.
-/

namespace StackML.Codegen

open Typing (Typed Checked)

def defineTyped : List Param → List Ty → Gen Unit
  | p :: ps, t :: ts => do
    let r ← liftDefect (Rep.ofTy t)
    let _ ← define p.name r
    defineTyped ps ts
  | _, _ => pure ()

def compileFunction (c : Checked) (s : Specialization) : Gen Unit := do
  let ctx : Context := { checked := c, mapping := s.mapping }
  let decl := s.fn.decl
  let arity := s.fn.arity
  let (params, result) := s.type.split arity
  if params.length ≠ arity then fail (.fewParameters decl.name s.type arity)
  let m ← separately decl.note.position.line do
    defineTyped decl.params params
    let descriptor ← liftDefect (Descriptor.write params result)
    let ret ← liftDefect (Rep.ofResult result)
    let code ← bodyCode ctx decl.body.note ret (expr ctx decl.body)
    pure (methodOf s.name descriptor (← get).locals.max code)
  addMethod { m with function := decl.name, signature := Signature.render s.type }

/-- Stores the top-level values in their fields, one after the other. -/
def storeValues (c : Checked) (done : List Fragment) : List (Decl Typed) → Gen Fragment
  | [] => pure (joinPieces done)
  | .value d :: rest => do
    let ctx : Context := { checked := c }
    modify fun s => { s with line := d.note.position.line }
    let t := (c.values.get? d.name).getD d.note.type
    let descriptor ← liftDefect (Descriptor.ofTy t)
    modify fun s => { s with fields := ⟨d.name, descriptor⟩ :: s.fields }
    let code ← expr ctx d.value
    let put ← emitConst ctx .putstatic
      { kind := .field, owner := ctx.module, name := d.name, descriptor := descriptor }
    storeValues c ((code ++ put) :: done) rest
  | _ :: rest => storeValues c done rest

def isValue : Decl Typed → Bool
  | .value _ => true
  | _ => false

def compileInitializer (c : Checked) : Gen Unit := do
  if c.module.decls.any isValue then
    let (code, maxLocals) ← separately 0 do
      let code ← storeValues c [] c.module.decls
      let code := code ++ (← emit .vreturn)
      pure (code, (← get).locals.max)
    addMethod (methodOf Names.initializer "()V" maxLocals code)

/-- The code of the main expression and the local words it needs. -/
def mainBody (c : Checked) (e : Expr Typed) (result : Rep) : Gen (Fragment × Nat) :=
  separately e.note.position.line do
    let code ← bodyCode { checked := c } e.note result (expr { checked := c } e)
    pure (code, (← get).locals.max)

def compileMain (c : Checked) (e : Expr Typed) : Gen Unit := do
  let t := c.main.getD e.note.type
  let descriptor ← liftDefect (Descriptor.write [] t)
  let ret ← liftDefect (Rep.ofResult t)
  let (code, maxLocals) ← mainBody c e ret
  addMethod (methodOf Names.entry descriptor maxLocals code)

/-- The functions of a module in the order of their declarations. -/
def ordered (c : Checked) : List Typing.Function := c.order.filterMap c.functions.get?

def unused (c : Checked) (s : State) : List Typing.Function :=
  (ordered c).filter fun f =>
    f.isPolymorphic && !s.specialized.contains f.decl.name && !s.queued.contains f.decl.name

/-- Compiles what is queued, and then what is used nowhere, until nothing is left. -/
def drain (c : Checked) : (steps : Nat) → Gen Unit
  | 0 => fail (.other "more methods than a module can call for")
  | steps + 1 => do
    match (← get).work with
    | s :: rest =>
      modify fun st => { st with work := rest }
      compileFunction c s
      drain c steps
    | [] =>
      match unused c (← get) with
      | [] => pure ()
      | fs =>
        for f in fs do enqueue (defaulted f)
        drain c steps

/-- The most names that methods are queued under: each function has its own name and those of its
recorded uses, and a call for another one leaves a constant in the pool. -/
def nameLimit (c : Checked) : Nat :=
  (ordered c).length + (ordered c).foldr (fun f n => (c.usesOf f.decl.name).length + n) 0 +
    c.functions.size * Pool.limit

/-- More steps than the queue can take: each takes a method from it or queues one. -/
def drainLimit (c : Checked) : Nat := 2 * nameLimit c + 1

def queueFunction (c : Checked) (f : Typing.Function) : Gen Unit := do
  if f.isPolymorphic then
    for t in c.usesOf f.decl.name do
      let _ ← specialize f t
  else enqueue { fn := f, name := f.decl.name, type := f.type }

def ownSums (c : Checked) : List (String × List String) :=
  c.sums.toSortedList.filter fun s => s.1 != Names.result

def holders (c : Checked) : List Artifact :=
  (ownSums c).flatMap fun (sum, ctors) => ctors.filterMap fun name =>
    (c.ctors.get? name).map fun info =>
      { name := name, kind := .holder, sum := sum, tag := .ofNat info.index
        payload := info.hasArg }

/-- Queues what is known to be needed, and compiles the initializer and the main expression. -/
def prepare (c : Checked) : Gen Unit := do
  for f in ordered c do queueFunction c f
  compileInitializer c
  match c.module.main with
  | some e => compileMain c e
  | none => pure ()

/-- Compiles a module, and gives its artifacts: the module itself and its constructors. -/
def compileModule (c : Checked) : Gen (List Artifact) := do
  prepare c
  drain c (drainLimit c)
  let s ← get
  let module : Artifact :=
    { name := c.module.name, constants := s.pool.entries, methods := s.methods.reverse
      fields := s.fields.reverse }
  pure (module :: holders c)

structure Outcome where
  result : Except Error (List Artifact)
  methods : List Method

def compile (c : Checked) : Outcome :=
  match (compileModule c).run {} with
  | .ok artifacts s => ⟨.ok artifacts, s.methods.reverse⟩
  | .error e s => ⟨.error e, s.methods.reverse⟩

/-- The specializations of a function that have a method of their own. -/
def specializations (module : Artifact) (name : String) : Except Defect (List Export) :=
  let own : Text := name
  (module.methods.filter fun m => m.function = own ∧ m.name ≠ own).mapM fun m =>
    match Signature.parse m.signature with
    | .ok t => .ok ⟨m.name.display, t⟩
    | .error e => .error (.badSignature m.name.display e.message)

def exportsOf (c : Checked) (module : Artifact) (name : String) : Except Defect (List Export) :=
  match c.values.get? name with
  | some t => .ok [⟨name, t⟩]
  | none =>
    match c.functions.get? name with
    | none => .ok []
    | some f =>
      if f.isPolymorphic then do
        pure (⟨name, f.type⟩ :: (← specializations module name))
      else .ok [⟨name, f.type⟩]

/-- The descriptor of a compiled module: functions with their specializations and values in the
order of their declarations, then the constructors. -/
def describe (c : Checked) (module : Artifact) : Except Defect Interface := do
  let exports ← c.order.mapM (exportsOf c module)
  let factories := (ownSums c).flatMap fun (_, ctors) => ctors.filterMap fun name =>
    (c.ctors.get? name).map fun info => ⟨Names.factoryStem ++ name, info.type⟩
  pure ⟨c.module.name, exports.flatten ++ factories⟩

end StackML.Codegen
