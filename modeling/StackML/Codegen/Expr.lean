import StackML.Codegen.Pattern

/-!
Code of expressions. `expr` leaves the value of an expression on the stack in the representation of
its type; a nested function becomes a method of its own. Long lists of expressions are compiled with
an accumulator of pieces, latest first.
-/

namespace StackML.Codegen

open Typing (Typed)

def joinPieces (pieces : List Fragment) : Fragment := pieces.reverse.flatten

def arithmeticOp (double : Bool) : BinaryOp → Opcode
  | .add => if double then .dadd else .iadd
  | .sub => if double then .dsub else .isub
  | .mul => if double then .dmul else .imul
  | .div => if double then .ddiv else .idiv
  | _ => if double then .drem else .irem

def intCompareOp : BinaryOp → Opcode
  | .eq => .ifIcmpEq
  | .ne => .ifIcmpNe
  | .lt => .ifIcmpLt
  | .gt => .ifIcmpGt
  | .le => .ifIcmpLe
  | _ => .ifIcmpGe

/-- The jump taken when a comparison holds, given a number below, at or above zero. -/
def zeroCompareOp : BinaryOp → Opcode
  | .eq => .ifEq
  | .ne => .ifNe
  | .lt => .ifLt
  | .gt => .ifGt
  | .le => .ifLe
  | _ => .ifGe

def comparison (ctx : Context) (place : Position) (op : BinaryOp) (t : Ty) : Gen Fragment := do
  match t with
  | .int | .bool => boolFromJump (intCompareOp op)
  | .double =>
    let c ← emit .dcmp
    pure (c ++ (← boolFromJump (zeroCompareOp op)))
  | .string =>
    let c ← emitConst ctx .invokehost stringCompare
    pure (c ++ (← boolFromJump (zeroCompareOp op)))
  | t =>
    match op with
    | .eq => emit .objEq
    | .ne =>
      let c ← emit .objEq
      pure (c ++ (← boolFromJump .ifEq))
    | _ => throw (.diagnostic ⟨place, .noOrdering op.text t⟩)

def toText (r : Rep) (t : Ty) : Gen Fragment :=
  match r with
  | .int => emit .tostrI
  | .bool => emit .tostrZ
  | .double => emit .tostrD
  | _ => if t = .string then pure [] else emit .tostrA

def joinTexts (pending : Nat) : Gen Fragment :=
  if 1 < pending then emitWith .strcat (.byte pending) else pure []

def maxJoin : Nat := 255

structure LambdaShape where
  name : String
  descriptor : String
  captures : List String
  names : List String
  reps : List Rep
  result : Rep

/-- Decides the method of a nested function: it takes the locals it captures, boxed, and then its
parameters. `self` is the name it has inside itself, empty if it has none. -/
def lambdaShape (ctx : Context) (n : Typed) (params : List String) (body : Expr Typed)
    (self : String) : Gen LambdaShape := do
  let t := ctx.typeOf n
  let names := if params.isEmpty then ["_"] else params
  let (types, result) := t.split names.length
  if types.length ≠ names.length then fail (.fewParameters "lambda" t names.length)
  let locals := (← get).locals
  let captures := (body.freeNames (self :: params)).filter fun x => (locals.find? x).isSome
  modify fun s => { s with lambdas := s.lambdas + 1 }
  let name := Names.lambdaStem ++ toString (← get).lambdas
  let reps ← types.mapM fun t => liftDefect (Rep.ofTy t)
  let reps := captures.map (fun _ => Rep.ref) ++ reps
  let result ← liftDefect (Rep.ofResult result)
  pure { name, descriptor := Descriptor.ofReprs reps result, captures, names, reps, result }

def defineParams (shape : LambdaShape) (self : String) : Gen Unit := do
  for (name, r) in (shape.captures ++ shape.names).zip shape.reps do
    let _ ← define name r
  if self != "" then
    let ref : SelfRef := ⟨shape.name, shape.descriptor, shape.captures, shape.reps, shape.result⟩
    modify fun s => { s with locals := s.locals.defineSelf self ref }

/-- Compiles a nested function to a method of its own and leaves its closure on the stack. -/
def closure (ctx : Context) (n : Typed) (params : List String) (body : Expr Typed) (self : String)
    (code : Context → Gen Fragment) : Gen Fragment := do
  let shape ← lambdaShape ctx n params body self
  let before ← get
  let inner := { ctx with outer := before.locals :: ctx.outer }
  let line := if n.position.line = 0 then before.line else n.position.line
  let (code, maxLocals) ← separately line do
    defineParams shape self
    let code ← bodyCode inner body.note shape.result (code inner)
    pure (code, (← get).locals.max)
  addMethod (methodOf shape.name shape.descriptor maxLocals code)
  let captures ← loadCaptures ctx shape.captures
  let k ← emitClosure ctx (methodRef ctx shape.name shape.descriptor) shape.captures.length
  pure (captures ++ k)

def hostOp : Host.MemberKind → Opcode
  | .func => .invokehost
  | .method => .invokehostvirtual
  | .field => .gethostfield
  | .new => .newhost

def hostCall (ctx : Context) (n : Typed) : Gen (DirectCall × Rep) := do
  match n.host with
  | none => fail (.noHostSignature n.position)
  | some s =>
    let use ← repOf ctx n
    let descriptor ← liftDefect (Descriptor.write s.params s.result)
    let k : Constant :=
      { kind := .host, int := s.kind.code, owner := s.owner, name := s.member
        descriptor := descriptor }
    pure ({
      params := s.params.map Rep.ofTy
      finish := do
        let call ← emitConst ctx (hostOp s.kind) k
        pure (call, ← liftDefect (Rep.ofResult s.result)) }, use)

def finishCall (finish : Gen (Fragment × Rep)) (use : Rep) : Gen Fragment := do
  let (code, r) ← finish
  pure (code ++ (← coerce r use))

mutual
def expr (ctx : Context) : Expr Typed → Gen Fragment
  | .int n v => do
    atLine n
    emitConst ctx .iconst { kind := .int, int := v }
  | .float n bits => do
    atLine n
    emitConst ctx .dconst { kind := .double, bits }
  | .bool n v => do
    atLine n
    emitWith .zconst (.byte (if v then 1 else 0))
  | .str n v => do
    atLine n
    emitConst ctx .sconst { kind := .string, str := v }
  | .unit n => do
    atLine n
    emit .unit
  | .interp n parts => do
    atLine n
    interpolation ctx 0 [] parts
  | .var n name => do
    atLine n
    nameValue ctx n name
  | .qualified n module name => do
    atLine n
    qualifiedValue ctx n module name
  | .unary n op e => do
    atLine n
    let r ← repOf ctx n
    let code ← expr ctx e
    match op with
    | .not => pure (code ++ (← boolFromJump .ifEq))
    | .neg => pure (code ++ (← emit (if r = .double then .dneg else .ineg)))
  | .binary n op l r => do
    atLine n
    if op.isArithmetic then
      let rep ← repOf ctx n
      let lr ← repOf ctx l.note
      let lc ← expr ctx l
      let lw ← if rep = .double ∧ lr = .int then emit .i2d else pure []
      let rr ← repOf ctx r.note
      let rc ← expr ctx r
      let rw ← if rep = .double ∧ rr = .int then emit .i2d else pure []
      pure (lc ++ lw ++ rc ++ rw ++ (← emit (arithmeticOp (rep = .double) op)))
    else if op.isComparison then
      let lc ← expr ctx l
      let rc ← expr ctx r
      pure (lc ++ rc ++ (← comparison ctx n.position op (ctx.typeOf l.note)))
    else
      let lc ← expr ctx l
      let short ← jump (if op = .or then .ifNe else .ifEq)
      let rc ← expr ctx r
      let pass ← jump .goto
      let decided ← emitWith .zconst (.byte (if op = .or then 1 else 0))
      let asked := rc ++ [pass decided.size]
      pure (lc ++ short (Fragment.size asked) :: asked ++ decided)
  | .cond n c t e => do
    atLine n
    let r ← repOf ctx n
    let cc ← expr ctx c
    let no ← jump .ifEq
    let tc ← asRep ctx t.note r (expr ctx t)
    let pass ← jump .goto
    let ec ← asRep ctx e.note r (expr ctx e)
    let yes := tc ++ [pass ec.size]
    pure (cc ++ no (Fragment.size yes) :: yes ++ ec)
  | .letIn n name v b => do
    atLine n
    let r ← repOf ctx v.note
    let vc ← expr ctx v
    inScope do
      let keep ← store (← define name r)
      let bc ← expr ctx b
      pure (vc ++ keep ++ bc)
  | .letRec n name fn params fb b => do
    atLine n
    let fc ← closure ctx fn params fb name fun inner => expr inner fb
    inScope do
      let keep ← store (← define name .ref)
      let bc ← expr ctx b
      pure (fc ++ keep ++ bc)
  | .lambda n params b => do
    atLine n
    closure ctx n params b "" fun inner => expr inner b
  | .apply n callee args => do
    atLine n
    let use ← repOf ctx n
    let direct ← match callee with
      | .var cn name => directCall? ctx cn name args
      | _ => pure none
    match direct with
    | some call => callArgs ctx use call.finish [call.before] call.params args
    | none =>
      let cc ← asRep ctx callee.note .ref (expr ctx callee)
      applyArgs ctx use [cc] args
  | .sequence n es => do
    atLine n
    if es.isEmpty then emit .unit else sequence ctx [] es
  | .print n e => do
    atLine n
    let r ← repOf ctx e.note
    let code ← expr ctx e
    let print ← emit (printOp r)
    pure (code ++ print ++ (← emit .unit))
  | .list n es => do
    atLine n
    let count := es.length
    if 0xffff < count then fail (.longList count)
    let code ← boxedAll ctx [] es
    pure (code ++ (← emitWith .newlist (.word count)))
  | .cons n h t => do
    atLine n
    let hc ← asRep ctx h.note .ref (expr ctx h)
    let tc ← expr ctx t
    pure (hc ++ tc ++ (← emit .listCons))
  | .matchOn n e arms => do
    atLine n
    let r ← repOf ctx n
    let sr ← repOf ctx e.note
    let ec ← expr ctx e
    inScope do
      let source ← define "" sr
      let keep ← store source
      let cases ← matchArms ctx source r [] arms
      modify fun s => { s with line := n.position.line }
      pure (ec ++ keep ++ joinCases (← emit .matchfail) cases)
  | .tag n name => do
    atLine n
    emitConst ctx .new (← holderRef ctx name)
  | .build n name e => do
    atLine n
    let holder ← holderRef ctx name
    let code ← asRep ctx e.note .ref (expr ctx e)
    pure (code ++ (← emitConst ctx .new holder))
  | .hostCall n _ _ args => do
    atLine n
    let (call, use) ← hostCall ctx n
    callArgs ctx use call.finish [] call.params args
  | .hostMethod n receiver _ args => do
    atLine n
    let (call, use) ← hostCall ctx n
    let rc ← asRep ctx receiver.note .ref (expr ctx receiver)
    callArgs ctx use call.finish [rc] call.params args
  | .hostField n .. => do
    atLine n
    let (call, use) ← hostCall ctx n
    finishCall call.finish use
  | .hostNew n _ => do
    atLine n
    let (call, use) ← hostCall ctx n
    finishCall call.finish use

def boxedAll (ctx : Context) (done : List Fragment) : List (Expr Typed) → Gen Fragment
  | [] => pure (joinPieces done)
  | e :: es => do
    let code ← asRep ctx e.note .ref (expr ctx e)
    boxedAll ctx (code :: done) es

/-- Evaluates expressions in order and keeps the value of the last. -/
def sequence (ctx : Context) (done : List Fragment) : List (Expr Typed) → Gen Fragment
  | [] => pure (joinPieces done)
  | e :: es => do
    let code ← expr ctx e
    if es.isEmpty then sequence ctx (code :: done) es
    else
      let r ← repOf ctx e.note
      let gone ← drop r
      sequence ctx ((code ++ gone) :: done) es

/-- Joins the parts of an interpolated string, of which `pending` are on the stack and not yet
joined. -/
def interpolation (ctx : Context) (pending : Nat) (done : List Fragment) :
    List (Part Typed) → Gen Fragment
  | [] => do
    let rest ←
      if pending = 0 then emitConst ctx .sconst { kind := .string } else joinTexts pending
    pure (joinPieces (rest :: done))
  | .text "" :: ps => interpolation ctx pending done ps
  | .text t :: ps => do
    let code ← emitConst ctx .sconst { kind := .string, str := t }
    if pending + 1 = maxJoin then
      let joined ← joinTexts (pending + 1)
      interpolation ctx 1 ((code ++ joined) :: done) ps
    else interpolation ctx (pending + 1) (code :: done) ps
  | .hole e :: ps => do
    let r ← repOf ctx e.note
    let code ← expr ctx e
    let code := code ++ (← toText r (ctx.typeOf e.note))
    if pending + 1 = maxJoin then
      let joined ← joinTexts (pending + 1)
      interpolation ctx 1 ((code ++ joined) :: done) ps
    else interpolation ctx (pending + 1) (code :: done) ps

/-- Passes arguments to a direct call in the representations it takes; what is left over is applied
to its result. -/
def callArgs (ctx : Context) (use : Rep) (finish : Gen (Fragment × Rep)) (done : List Fragment)
    (params : List (Except Defect Rep)) : List (Expr Typed) → Gen Fragment
  | [] => do
    let end_ ← finishCall finish use
    pure (joinPieces (end_ :: done))
  | e :: es => do
    match params with
    | p :: ps =>
      let r ← liftDefect p
      let code ← asRep ctx e.note r (expr ctx e)
      callArgs ctx use finish (code :: done) ps es
    | [] =>
      let call ← finishCall finish .ref
      let code ← asRep ctx e.note .ref (expr ctx e)
      let code := code ++ (← emit .apply)
      applyArgs ctx use (code :: call :: done) es

/-- Applies the function on the stack to arguments, one after the other. -/
def applyArgs (ctx : Context) (use : Rep) (done : List Fragment) : List (Expr Typed) → Gen Fragment
  | [] => do
    let end_ ← coerce .ref use
    pure (joinPieces (end_ :: done))
  | e :: es => do
    let code ← asRep ctx e.note .ref (expr ctx e)
    let code := code ++ (← emit .apply)
    applyArgs ctx use (code :: done) es

/-- The cases of a match on the value in a local, with results in the given representation. -/
def matchArms (ctx : Context) (source : Local) (r : Rep) (done : List Case) :
    List (Arm Typed) → Gen (List Case)
  | [] => pure done.reverse
  | .mk p e :: arms => do
    let case ← inScope do
      let tests ← testPattern ctx source p
      let body ← asRep ctx e.note r (expr ctx e)
      pure (Case.of tests body (← jump .goto))
    matchArms ctx source r (case :: done) arms
end

end StackML.Codegen
