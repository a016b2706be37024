import StackML.Typing.Pattern

/-!
Inference of expressions. `infer` gives the tree back with the type of every node; types are those
at the time of the visit and still mention variables that later unifications bind. The first issue
ends it.
-/

namespace StackML.Typing

def lookup (env : Env) (place : Position) (name : String) : Infer Ty := do
  match env.get? name with
  | some b => instantiate b.type
  | none => refuse place (.undefinedName name)

/-- Binds parameters to fresh variables, which are given in order. -/
def bindParams : Env → List String → Infer (List Ty × Env)
  | env, [] => pure ([], env)
  | env, name :: rest => do
    let v ← fresh
    let (vs, env) ← bindParams (env.extend name v) rest
    pure (v :: vs, env)

/-- The type of a nested function; without parameters it takes unit. -/
def lambdaType (params : List Ty) (result : Ty) : Ty :=
  if params.isEmpty then .fn .unit result else .fns params result

/-- The type of a binary operation. Each operand of arithmetic is numeric by itself; when one is a
double the result is, and otherwise both agree. -/
def binaryType (place : Position) (op : BinaryOp) (left right : Typed) : Infer Ty := do
  if op.isArithmetic then
    unify left.position left.type (← freshNumeric)
    unify right.position right.type (← freshNumeric)
    let l ← prune left.type
    let r ← prune right.type
    if l = .double ∨ r = .double then pure .double
    else
      unify place left.type right.type
      pure left.type
  else if op.isComparison then
    unify place left.type right.type
    pure .bool
  else
    unify left.position left.type .bool
    unify right.position right.type .bool
    pure .bool

/-- Notes the type at which a polymorphic top-level function is called, if it is fully known. -/
def recordUse (env : Env) (callee : Expr Position) (t : Ty) : Infer Unit := do
  match callee with
  | .var _ name =>
    match (← get).uses.get? name, env.get? name with
    | some seen, some b =>
      if b.global then
        let t ← resolve t
        if !t.hasVars && !seen.any (·.text == t.text) then
          modify fun s => { s with uses := s.uses.insert name (t :: seen) }
    | _, _ => pure ()
  | _ => pure ()

def unifyArgs : List (Position × Ty) → List Ty → Infer Unit
  | (place, t) :: args, p :: params => do
    unify place t p
    unifyArgs args params
  | _, _ => pure ()

def hostMember (host : Host.Resolver) (place : Position) (owner member : String)
    (kind : Host.MemberKind) (args : List (Position × Ty)) : Infer Typed := do
  match host owner member kind with
  | .error u => refuse place (.unknownHostMember u.message)
  | .ok s =>
    if s.params.length ≠ args.length then
      refuse place (.hostArity s.key s.params.length args.length)
    unifyArgs args s.params
    pure ⟨place, s.result, some s⟩

/-- The types of expressions that were inferred, with their places. -/
def typesOf (es : List (Expr Typed)) : List (Position × Ty) :=
  es.map fun e => (e.note.position, e.note.type)

/-- The type of the last expression of a sequence; unit if there is none. -/
def lastType (es : List (Expr Typed)) : Ty :=
  match es.getLast? with
  | some e => e.note.type
  | none => .unit

mutual
def infer (host : Host.Resolver) (env : Env) : Expr Position → Infer (Expr Typed)
  | .int p v => pure (.int ⟨p, .int, none⟩ v)
  | .float p bits => pure (.float ⟨p, .double, none⟩ bits)
  | .bool p v => pure (.bool ⟨p, .bool, none⟩ v)
  | .str p v => pure (.str ⟨p, .string, none⟩ v)
  | .unit p => pure (.unit ⟨p, .unit, none⟩)
  | .interp p parts => do
    let parts ← inferParts host env [] parts
    pure (.interp ⟨p, .string, none⟩ parts)
  | .var p name => do
    pure (.var ⟨p, ← lookup env p name, none⟩ name)
  | .qualified p module name => do
    pure (.qualified ⟨p, ← lookup env p (module ++ "." ++ name), none⟩ module name)
  | .unary p op e => do
    let e ← infer host env e
    match op with
    | .not =>
      unify e.note.position e.note.type .bool
      pure (.unary ⟨p, .bool, none⟩ op e)
    | .neg =>
      unify e.note.position e.note.type (← freshNumeric)
      pure (.unary ⟨p, e.note.type, none⟩ op e)
  | .binary p op l r => do
    let l ← infer host env l
    let r ← infer host env r
    pure (.binary ⟨p, ← binaryType p op l.note r.note, none⟩ op l r)
  | .cond p c t e => do
    let c ← infer host env c
    unify c.note.position c.note.type .bool
    let t ← infer host env t
    let e ← infer host env e
    unify e.note.position t.note.type e.note.type
    pure (.cond ⟨p, t.note.type, none⟩ c t e)
  | .letIn p name v b => do
    let v ← infer host env v
    let t ← generalizeLocal env v.note.type
    let b ← infer host (env.extend name t) b
    pure (.letIn ⟨p, b.note.type, none⟩ name v b)
  | .letRec p name fp params fb b => do
    let placeholder ← fresh
    let (ps, inner) ← bindParams (env.extend name placeholder) params
    let fb ← infer host inner fb
    let ft := lambdaType ps fb.note.type
    unify p placeholder ft
    let t ← generalizeLocal env ft
    let b ← infer host (env.extend name t) b
    pure (.letRec ⟨p, b.note.type, none⟩ name ⟨fp, ft, none⟩ params fb b)
  | .lambda p params b => do
    let (ps, inner) ← bindParams env params
    let b ← infer host inner b
    pure (.lambda ⟨p, lambdaType ps b.note.type, none⟩ params b)
  | .apply p callee args => do
    let c ← infer host env callee
    let (t, args) ← inferArgs host env c.note.type [] args
    recordUse env callee c.note.type
    pure (.apply ⟨p, t, none⟩ c args)
  | .sequence p es => do
    let es ← inferAll host env [] es
    pure (.sequence ⟨p, lastType es, none⟩ es)
  | .print p e => do
    let e ← infer host env e
    pure (.print ⟨p, .unit, none⟩ e)
  | .list p es => do
    let elem ← fresh
    let es ← inferElems host env elem [] es
    pure (.list ⟨p, .list elem, none⟩ es)
  | .cons p h t => do
    let h ← infer host env h
    let t ← infer host env t
    unify p t.note.type (.list h.note.type)
    pure (.cons ⟨p, t.note.type, none⟩ h t)
  | .matchOn p e arms => do
    let e ← infer host env e
    if arms.isEmpty then refuse p .emptyMatch
    let result ← fresh
    let arms ← inferArms host env e.note.type result [] arms
    pure (.matchOn ⟨p, result, none⟩ e arms)
  | .tag p name => do
    let c ← findCtor p name
    let ct ← instantiate c.type
    if c.hasArg then refuse p (.missingArgument name)
    pure (.tag ⟨p, ct, none⟩ name)
  | .build p name e => do
    let c ← findCtor p name
    let ct ← instantiate c.type
    if !c.hasArg then refuse p (.extraArgument name)
    let e ← infer host env e
    let result ← fresh
    unify e.note.position ct (.fn e.note.type result)
    pure (.build ⟨p, result, none⟩ name e)
  | .hostCall p owner member args => do
    let args ← inferAll host env [] args
    pure (.hostCall (← hostMember host p owner member .func (typesOf args)) owner member args)
  | .hostMethod p receiver member args => do
    let r ← infer host env receiver
    let t ← resolve r.note.type
    match Host.ownerOf? t with
    | none => refuse p (.noHostMethods member t)
    | some owner =>
      let args ← inferAll host env [] args
      pure (.hostMethod (← hostMember host p owner member .method (typesOf args)) r member args)
  | .hostField p owner name => do
    pure (.hostField (← hostMember host p owner name .field []) owner name)
  | .hostNew p owner => do
    pure (.hostNew (← hostMember host p owner "" .new []) owner)

def inferAll (host : Host.Resolver) (env : Env) (done : List (Expr Typed)) :
    List (Expr Position) → Infer (List (Expr Typed))
  | [] => pure done.reverse
  | e :: es => do
    let e ← infer host env e
    inferAll host env (e :: done) es

def inferElems (host : Host.Resolver) (env : Env) (elem : Ty) (done : List (Expr Typed)) :
    List (Expr Position) → Infer (List (Expr Typed))
  | [] => pure done.reverse
  | e :: es => do
    let e ← infer host env e
    unify e.note.position elem e.note.type
    inferElems host env elem (e :: done) es

/-- Infers the arguments that a function of the given type is applied to, one after the other, and
gives the type of the application. -/
def inferArgs (host : Host.Resolver) (env : Env) (fn : Ty) (done : List (Expr Typed)) :
    List (Expr Position) → Infer (Ty × List (Expr Typed))
  | [] => pure (fn, done.reverse)
  | e :: es => do
    let e ← infer host env e
    let result ← fresh
    unify e.note.position fn (.fn e.note.type result)
    inferArgs host env result (e :: done) es

def inferParts (host : Host.Resolver) (env : Env) (done : List (Part Typed)) :
    List (Part Position) → Infer (List (Part Typed))
  | [] => pure done.reverse
  | .text t :: ps => inferParts host env (.text t :: done) ps
  | .hole e :: ps => do
    let e ← infer host env e
    inferParts host env (.hole e :: done) ps

/-- Infers the arms of a match on the given type, all with the given result. -/
def inferArms (host : Host.Resolver) (env : Env) (scrutinee result : Ty)
    (done : List (Arm Typed)) : List (Arm Position) → Infer (List (Arm Typed))
  | [] => pure done.reverse
  | .mk p e :: arms => do
    let (p, inner) ← checkPattern env scrutinee p
    let e ← infer host inner e
    unify e.note.position result e.note.type
    inferArms host env scrutinee result (.mk p e :: done) arms
end

end StackML.Typing
