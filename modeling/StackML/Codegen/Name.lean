import StackML.Codegen.State
import StackML.Expr.FreeNames

/-!
Names as values and as callees. A name is, in this order, a local of the method, a top-level
function, a top-level value, a constructor or `print`.
-/

namespace StackML.Codegen

/-- Loads captured locals, boxed and in order; `selfClosure` makes the recursive function that a
name stands for. -/
def loadAll (selfClosure : SelfRef → Gen Fragment) (names : List String) : Gen Fragment := do
  let pieces ← names.mapM fun name => do
    match (← get).locals.find? name with
    | none => fail (.captureLost name)
    | some l =>
      match l.self with
      | some self => selfClosure self
      | none => do
        let code ← load l
        pure (code ++ (← coerce l.repr .ref))
  pure pieces.flatten

/-- Makes the closure of a recursive function from inside it. The captures of such a function are
locals of its own method; none of them stands for a function in turn, which `depth` bounds. -/
def selfClosureWithin (ctx : Context) : (depth : Nat) → SelfRef → Gen Fragment
  | 0, self => fail (.captureLost self.method)
  | depth + 1, self => do
    let captures ← loadAll (selfClosureWithin ctx depth) self.captures
    let k ← emitClosure ctx (methodRef ctx self.method self.descriptor) self.captures.length
    pure (captures ++ k)

/-- Makes the closure of the recursive function being compiled from its own captures. -/
def selfClosure (ctx : Context) (self : SelfRef) : Gen Fragment := do
  selfClosureWithin ctx ((← get).locals.entries.length + 1) self

def loadCaptures (ctx : Context) (names : List String) : Gen Fragment :=
  loadAll (selfClosure ctx) names

/-- The class of a constructor; the built-in ones belong to no module. -/
def holderRef (ctx : Context) (name : String) : Gen Constant :=
  match ctx.checked.ctors.get? name with
  | none => fail (.unknownConstructor name)
  | some c =>
    let owner :=
      if c.module != "" then c.module
      else if c.sum == Names.result then ""
      else ctx.module
    pure { kind := .holder, owner := owner, name := c.name }

/-- Adds, once, the method of that name, whose one argument is a reference. -/
def addFactory (name descriptor : String) (code : Gen Fragment) : Gen Unit := do
  if (← get).factories.contains name then return
  modify fun s => { s with factories := name :: s.factories }
  let code ← separately 0 code
  addMethod (methodOf name descriptor 1 code)

def ctorFactory (ctx : Context) (c : Typing.Constructor) : Gen Constant := do
  let name := Names.factoryStem ++ c.name
  let descriptor := "(Lobject;)L" ++ c.sum ++ ";"
  addFactory name descriptor do
    let holder ← holderRef ctx c.name
    let arg ← emitWith .aload (.word 0)
    let new ← emitConst ctx .new holder
    pure (arg ++ new ++ (← emit .areturn))
  pure (methodRef ctx name descriptor)

def printFactory (ctx : Context) : Gen Constant := do
  let name := Names.lambdaStem ++ Names.print
  let descriptor := "(Lobject;)V"
  addFactory name descriptor do
    let arg ← emitWith .aload (.word 0)
    let print ← emit .printA
    pure (arg ++ print ++ (← emit .vreturn))
  pure (methodRef ctx name descriptor)

def descriptorOf (t : Ty) (arity : Nat) : Gen String :=
  let (params, result) := t.split arity
  liftDefect (Descriptor.write params result)

/-- A top-level function as a value; without parameters it is called. -/
def functionValue (ctx : Context) (fn : Typing.Function) (t : Ty) (use : Rep) : Gen Fragment := do
  let (name, type) ← target fn t
  let descriptor ← descriptorOf type fn.arity
  let k := methodRef ctx name descriptor
  if fn.arity = 0 then
    let call ← emitConst ctx .invokestatic k
    let result ← liftDefect (Rep.ofResult type)
    pure (call ++ (← coerce result use))
  else emitClosure ctx k 0

def fieldValue (ctx : Context) (name : String) (t : Ty) (use : Rep) : Gen Fragment := do
  let descriptor ← liftDefect (Descriptor.ofTy t)
  let r ← liftDefect (Rep.ofTy t)
  let get ← emitConst ctx .getstatic
    { kind := .field, owner := ctx.module, name := name, descriptor := descriptor }
  pure (get ++ (← coerce r use))

def nameValue (ctx : Context) (n : Typing.Typed) (name : String) : Gen Fragment := do
  let use ← repOf ctx n
  let locals := (← get).locals
  match locals.find? name with
  | some l =>
    match l.self with
    | some self => selfClosure ctx self
    | none => do
      let code ← load l
      pure (code ++ (← coerce l.repr use))
  | none =>
    if boundInAny ctx.outer name then fail (.notCaptured name)
    else if let some fn := ctx.checked.functions.get? name then
      functionValue ctx fn (ctx.typeOf n) use
    else if let some t := ctx.checked.values.get? name then fieldValue ctx name t use
    else if let some c := ctx.checked.ctors.get? name then
      if c.hasArg then emitClosure ctx (← ctorFactory ctx c) 0
      else emitConst ctx .new (← holderRef ctx name)
    else if name == Names.print then emitClosure ctx (← printFactory ctx) 0
    else fail (.unboundName name)

/-- The export that a qualified name refers to: for a polymorphic one the specialization that the
other module has for the type of the use. -/
def exportName (ctx : Context) (n : Typing.Typed) (module name : String) : Gen String := do
  match ctx.checked.imports.get? module with
  | none => fail (.notImported module)
  | some interface =>
    match interface.find? name with
    | none => fail (.notExported module name)
    | some declared =>
      if !declared.isPolymorphic then pure name
      else
        let t := ctx.typeOf n
        let names := (List.range (t.arity + 1)).reverse.map (t.specializedName name)
        match names.find? fun s => (interface.find? s).isSome with
        | some s => pure s
        | none => throw (.diagnostic ⟨n.position, .noSpecialization module name t⟩)

def qualifiedValue (ctx : Context) (n : Typing.Typed) (module name : String) : Gen Fragment := do
  let use ← repOf ctx n
  let name ← exportName ctx n module name
  let get ← emitConst ctx .getexport { kind := .exported, owner := module, name := name }
  pure (get ++ (← coerce .ref use))

/-- A call that needs no closure: what comes before the arguments, the representations of those it
takes, and the call itself, which gives the representation of its result. -/
structure DirectCall where
  before : Fragment := []
  params : List (Except Defect Rep)
  finish : Gen (Fragment × Rep)

def printOp : Rep → Opcode
  | .int => .printI
  | .bool => .printZ
  | .double => .printD
  | _ => .printA

/-- A call of the recursive function being compiled. Its captures are handed on. -/
def selfCall (ctx : Context) (self : SelfRef) : Gen DirectCall := do
  let before ← self.captures.mapM fun name => do
    match (← get).locals.find? name with
    | none => fail (.selfCaptureLost name self.method)
    | some l => load l
  pure {
    before := before.flatten
    params := (self.params.drop self.captures.length).map .ok
    finish := do
      let call ← emitConst ctx .invokestatic (methodRef ctx self.method self.descriptor)
      pure (call, self.result) }

def functionCall (ctx : Context) (fn : Typing.Function) (t : Ty) : Gen DirectCall := do
  let (name, type) ← target fn t
  let (params, result) := type.split fn.arity
  pure {
    params := params.map Rep.ofTy
    finish := do
      let descriptor ← liftDefect (Descriptor.write params result)
      let call ← emitConst ctx .invokestatic (methodRef ctx name descriptor)
      pure (call, ← liftDefect (Rep.ofResult result)) }

/-- How a name applied to the given arguments is called directly, if it is. -/
def directCall? (ctx : Context) (n : Typing.Typed) (name : String)
    (args : List (Expr Typing.Typed)) : Gen (Option DirectCall) := do
  match (← get).locals.find? name with
  | some l =>
    match l.self with
    | some self =>
      if args.length < self.params.length - self.captures.length then pure none
      else pure (some (← selfCall ctx self))
    | none => pure none
  | none =>
    if let some fn := ctx.checked.functions.get? name then
      if fn.arity = 0 ∨ args.length < fn.arity then pure none
      else pure (some (← functionCall ctx fn (ctx.typeOf n)))
    else if ctx.checked.values.contains name then pure none
    else
      match args with
      | [] => pure none
      | arg :: _ =>
        let ctor := (ctx.checked.ctors.get? name).filter (·.hasArg)
        if ctor.isSome then
          let holder ← holderRef ctx name
          pure (some {
            params := [.ok .ref]
            finish := do pure (← emitConst ctx .new holder, .ref) })
        else if name == Names.print then
          let r ← repOf ctx arg.note
          pure (some {
            params := [.ok r]
            finish := do pure (← emit (printOp r), .void) })
        else pure none

end StackML.Codegen
