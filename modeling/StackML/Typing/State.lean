import StackML.Diagnostic
import StackML.Host.Member
import StackML.Interface
import StackML.Names
import StackML.Typing.Env
import StackML.Ty.Unify

/-!
What inference carries along: the substitution, the last variable number used, the constructors and
sum types known so far, and the concrete types at which polymorphic functions were called. A failed
step keeps what was learned before it.
-/

namespace StackML.Typing

structure Constructor where
  name : String
  sum : String
  index : Nat
  hasArg : Bool
  module : String := ""
  type : Ty
  deriving Inhabited, Repr

structure Typed where
  position : Position
  type : Ty
  host : Option Host.Signature := none
  deriving Inhabited, Repr

structure State where
  subst : Subst := {}
  last : VarId := 0
  ctors : NameMap Constructor := .empty
  sums : NameMap (List String) := .empty
  imports : NameMap Interface := .empty
  /-- For each polymorphic top-level function the types it was called at, latest first. -/
  uses : NameMap (List Ty) := .empty

abbrev Infer := EStateM Diagnostic State

def refuse {α : Type} (place : Position) (issue : Issue) : Infer α := throw ⟨place, issue⟩

def freshOf (numeric : Bool) : Infer Ty := do
  let s ← get
  let id := s.last + 1
  set { s with last := id }
  pure (.ofVar id numeric)

def fresh : Infer Ty := freshOf false

def freshNumeric : Infer Ty := freshOf true

def instantiate (t : Ty) : Infer Ty := do
  let s ← get
  let (t, last) := t.instantiate s.last
  set { s with last }
  pure t

def resolve (t : Ty) : Infer Ty := do
  let s ← get
  let (t, subst) := s.subst.resolve t
  set { s with subst }
  pure t

def prune (t : Ty) : Infer Ty := do
  let s ← get
  let (t, subst) := s.subst.prune t
  set { s with subst }
  pure t

def fixedVars (env : Env) : Infer (List VarId) := do
  let s ← get
  let (ids, subst) := env.freeVars s.subst
  set { s with subst }
  pure ids

/-- Quantifies the variables of a type that are not free in the environment. -/
def generalize (env : Env) (t : Ty) : Infer Ty := do
  let t ← resolve t
  pure (t.generalize (← fixedVars env))

/-- Generalization of a local: numeric variables stay as they are, since a local function is
compiled once, at the representation that its uses agree on. -/
def generalizeLocal (env : Env) (t : Ty) : Infer Ty := do
  let t ← resolve t
  pure (t.generalize ((← fixedVars env) ++ t.numericIds))

/-- Gives every variable of a type from outside a fresh one, the same for the same variable
throughout the mapping. A scheme at the top is opened. -/
def freshen (t : Ty) (m : Mapping) : Infer (Ty × Mapping) := do
  let t := t.body
  let numeric := t.numericIds
  let m ← t.freeVars.foldlM (fun m id => do
    if (m.get? id).isSome then pure m
    else pure ((id, ← freshOf (numeric.contains id)) :: m)) m
  pure (t.replace m, m)

def issueOf : UnifyError → Infer Issue
  | .recursive v t => pure (.recursiveType v t)
  | .notNumeric _ t => do pure (.notNumeric (← resolve t))
  | .mismatch a b => do pure (.mismatch (← resolve a) (← resolve b))

/-- Makes two types equal, or reports at the place why they cannot be. -/
def unify (place : Position) (a b : Ty) : Infer Unit := do
  let s ← get
  let (failure, subst) := s.subst.unify a b
  set { s with subst }
  match failure with
  | none => pure ()
  | some e => refuse place (← issueOf e)

/-- The built-in names: `print` and the constructors of results. -/
def baseEnv : Infer Env := do
  let a ← fresh
  let ok ← fresh
  let err ← fresh
  let vars := [ok, err].filterMap Ty.varId?
  let build (arg : Ty) : Ty := .scheme vars (.fn arg (.result ok err))
  let ctor (name : String) (index : Nat) (arg : Ty) : Constructor :=
    { name, sum := Names.result, index, hasArg := true, type := build arg }
  modify fun s => { s with
    sums := s.sums.insert Names.result [Names.ok, Names.error]
    ctors := (s.ctors.insert Names.ok (ctor Names.ok 0 ok)).insert Names.error
      (ctor Names.error 1 err) }
  let env := Env.extendGlobal .empty Names.print (.scheme ([a].filterMap Ty.varId?) (.fn a .unit))
  pure ((env.extendGlobal Names.ok (build ok)).extendGlobal Names.error (build err))

end StackML.Typing
