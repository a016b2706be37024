import StackML.Expr.Basic
import StackML.Typing.State

/-!
Patterns: each is checked against the type of what it is matched with and extends the environment
by the names it binds, which are not generalized.
-/

namespace StackML.Typing

/-- The constructor of a name, or the report that there is none. -/
def findCtor (place : Position) (name : String) : Infer Constructor := do
  match (← get).ctors.get? name with
  | some c => pure c
  | none => refuse place (.unknownConstructor name)

def checkPattern (env : Env) (t : Ty) : Pattern Position → Infer (Pattern Typed × Env)
  | .wild p => pure (.wild ⟨p, t, none⟩, env)
  | .var p name => pure (.var ⟨p, t, none⟩ name, env.extend name t)
  | .int p v => do
    unify p t .int
    pure (.int ⟨p, t, none⟩ v, env)
  | .bool p v => do
    unify p t .bool
    pure (.bool ⟨p, t, none⟩ v, env)
  | .str p v => do
    unify p t .string
    pure (.str ⟨p, t, none⟩ v, env)
  | .nil p => do
    unify p t (.list (← fresh))
    pure (.nil ⟨p, t, none⟩, env)
  | .cons p head tail => do
    let elem ← fresh
    unify p t (.list elem)
    let (head, env) ← checkPattern env elem head
    let (tail, env) ← checkPattern env t tail
    pure (.cons ⟨p, t, none⟩ head tail, env)
  | .tag p name => do
    let c ← findCtor p name
    let ct ← instantiate c.type
    if c.hasArg then unify p ct (.fn (← fresh) t) else unify p t ct
    pure (.tag ⟨p, t, none⟩ name, env)
  | .build p name arg => do
    let c ← findCtor p name
    let ct ← instantiate c.type
    if !c.hasArg then refuse p (.extraArgument name)
    let payload ← fresh
    unify p ct (.fn payload t)
    let (arg, env) ← checkPattern env payload arg
    pure (.build ⟨p, t, none⟩ name arg, env)

end StackML.Typing
