import StackML.Expr.Notes
import StackML.Typing.Expr

/-!
Inference of whole modules: imports, then all sum types, then functions and values in the order of
their declarations, then the main expression. The result is closed: types are resolved, and numeric
variables that no function quantifies have become `int`.
-/

namespace StackML.Typing

structure Function where
  decl : FnDecl Typed
  type : Ty

namespace Function

def isPolymorphic (f : Function) : Bool := f.type.isPolymorphic

def arity (f : Function) : Nat := f.decl.params.length

end Function

/-- A module with everything that inference found out about it. Type declarations, and the module
itself, have no type of their own and are noted with unit. -/
structure Checked where
  module : Module Typed
  functions : NameMap Function := .empty
  values : NameMap Ty := .empty
  ctors : NameMap Constructor := .empty
  sums : NameMap (List String) := .empty
  imports : NameMap Interface := .empty
  uses : NameMap (List Ty) := .empty
  /-- Functions and values in the order of their declarations. -/
  order : List String := []
  main : Option Ty := none

/-- The types at which a polymorphic function is used, in the order of their texts. -/
def Checked.usesOf (c : Checked) (name : String) : List Ty :=
  ((c.uses.get? name).getD []).mergeSort fun a b => a.text ≤ b.text

/-- What answers for other modules: a descriptor, or why there is none. -/
abbrev Importer := String → Except String Interface

/-! ### Imports -/

/-- The sum type that a constructor builds, going by its type, and whether it has an argument. -/
def builtSum? (t : Ty) : Option (String × Bool) :=
  let (self, hasArg) := match t.body with
    | .fn _ r => (r, true)
    | t => (t, false)
  match self with
  | .named name | .app name _ => some (name, hasArg)
  | _ => none

/-- Fresh variables for those of a type from outside, all quantified. -/
def importType (t : Ty) : Infer Ty := do
  let (t, _) ← freshen t []
  pure (t.generalize [])

/-- Registers an imported constructor under its qualified name. Constructors of one sum type are
exported in the order of their positions; `counts` says how many of each there were. -/
def importCtor (place : Position) (module name : String) (t : Ty) (counts : NameMap Nat) :
    Infer (NameMap Nat) := do
  match builtSum? t with
  | none =>
    refuse place (.importFailed module ("constructor " ++ name ++ " does not build a sum type"))
  | some (sum, hasArg) =>
    let type ← importType t
    let index := (counts.get? sum).getD 0
    modify fun s => { s with
      ctors := s.ctors.insert (module ++ "." ++ name) { name, sum, index, hasArg, module, type } }
    pure (counts.insert sum (index + 1))

/-- The constructor that an export builds, if it is one that builds. -/
def factoryOf? (name : String) : Option String :=
  if Names.factoryStem.isPrefixOf name then
    some (String.ofList (name.toList.drop Names.factoryStem.length))
  else none

/-- Binds one export of a module. Specializations are no names of the language and are passed
over. -/
def importExport (place : Position) (module : String) (env : Env) (counts : NameMap Nat)
    (e : Export) : Infer (Env × NameMap Nat) := do
  match factoryOf? e.name with
  | some ctor => pure (env, ← importCtor place module ctor e.type counts)
  | none =>
    if e.name.toList.contains '$' then pure (env, counts)
    else pure (env.extendGlobal (module ++ "." ++ e.name) (← importType e.type), counts)

def importModule (importer : Option Importer) (place : Position) (env : Env) (name : String) :
    Infer Env := do
  match importer with
  | none => refuse place (.noModuleStore name)
  | some find =>
    match find name with
    | .error reason => refuse place (.importFailed name reason)
    | .ok interface =>
      modify fun s => { s with imports := s.imports.insert name interface }
      let (env, _) ← interface.exports.foldlM (fun (env, counts) e =>
        importExport place name env counts e) (env, .empty)
      pure env

/-! ### Declarations -/

structure Progress where
  env : Env
  declared : List String := []
  functions : NameMap Function := .empty
  values : NameMap Ty := .empty
  order : List String := []
  decls : List (Decl Typed) := []

def Progress.declare (s : Progress) (place : Position) (name : String) : Infer Progress :=
  if s.declared.contains name then refuse place (.declaredTwice name)
  else pure { s with declared := name :: s.declared }

mutual
/-- Replaces the named types that are parameters of a sum type by their variables. -/
def bindTypeParams (params : List (String × Ty)) : Ty → Ty
  | .named name => (params.lookup name).getD (.named name)
  | .list a => .list (bindTypeParams params a)
  | .result a b => .result (bindTypeParams params a) (bindTypeParams params b)
  | .fn a b => .fn (bindTypeParams params a) (bindTypeParams params b)
  | .app name as => .app name (bindTypeParamsAll params as)
  | t => t

def bindTypeParamsAll (params : List (String × Ty)) : List Ty → List Ty
  | [] => []
  | a :: as => bindTypeParams params a :: bindTypeParamsAll params as
end

/-- The type of a constructor of the sum type `self` with the given parameters. -/
def ctorType (params : List (String × Ty)) (self : Ty) (arg : Option Ty) : Ty :=
  let t := match arg with
    | some a => .fn (bindTypeParams params a) self
    | none => self
  match (params.reverse.map (·.2)).filterMap Ty.varId? with
  | [] => t
  | vars => .scheme vars t

/-- Declares the constructors of a sum type from the given position on. -/
def declareCtors (place : Position) (sum : String) (typeOf : Option Ty → Ty) :
    Progress → (index : Nat) → List CtorDecl → Infer Progress
  | s, _, [] => pure s
  | s, index, c :: rest => do
    let s ← s.declare place c.name
    if (← get).ctors.contains c.name then refuse place (.constructorDefined c.name)
    let type := typeOf c.arg
    let ctor : Constructor := { name := c.name, sum, index, hasArg := c.arg.isSome, type }
    modify fun st => { st with ctors := st.ctors.insert c.name ctor }
    declareCtors place sum typeOf { s with env := s.env.extendGlobal c.name type } (index + 1) rest

def declareType (s : Progress) (d : TypeDecl Position) : Infer Progress := do
  let s ← s.declare d.note d.name
  if Signature.isReserved d.name || d.name == Names.result then
    refuse d.note (.badTypeName d.name)
  let (vars, _) ← bindParams .empty d.params
  -- of two parameters of one name the later one counts
  let params := (d.params.zip vars).reverse
  let self := if vars.isEmpty then .named d.name else .app d.name vars
  let s ← declareCtors d.note d.name (ctorType params self) s 0 d.ctors
  modify fun st => { st with sums := st.sums.insert d.name (d.ctors.map (·.name)) }
  pure s

/-- Binds the parameters of a top-level function, annotated ones to their types. -/
def bindTypedParams : Env → Mapping → List Param → Infer (List Ty × Env × Mapping)
  | env, m, [] => pure ([], env, m)
  | env, m, p :: rest => do
    let (t, m) ← match p.type with
      | some t => freshen t m
      | none => do pure (← fresh, m)
    let (ts, env, m) ← bindTypedParams (env.extend p.name t) m rest
    pure (t :: ts, env, m)

/-- Infers a top-level function, in whose body its own name is not generalized. -/
def inferFunction (host : Host.Resolver) (env : Env) (d : FnDecl Position) : Infer Function := do
  let placeholder ← fresh
  let (params, inner, m) ← bindTypedParams (env.extend d.name placeholder) [] d.params
  let body ← infer host inner d.body
  match d.result with
  | some t =>
    let (t, _) ← freshen t m
    unify body.note.position body.note.type t
  | none => pure ()
  let t := Ty.fns params body.note.type
  unify d.note placeholder t
  pure { decl := { d with note := ⟨d.note, t, none⟩, body }, type := ← generalize env t }

/-- Infers one declaration. Values are not generalized, since a field has one representation. -/
def inferDecl (host : Host.Resolver) (s : Progress) : Decl Position → Infer Progress
  | .type d => pure { s with decls := .type { d with note := ⟨d.note, .unit, none⟩ } :: s.decls }
  | .fn d => do
    let s ← s.declare d.note d.name
    let f ← inferFunction host s.env d
    if f.isPolymorphic then
      modify fun st =>
        if st.uses.contains d.name then st else { st with uses := st.uses.insert d.name [] }
    pure { s with
      functions := s.functions.insert d.name f
      order := d.name :: s.order
      env := s.env.extendGlobal d.name f.type
      decls := .fn f.decl :: s.decls }
  | .value d => do
    let s ← s.declare d.note d.name
    let v ← infer host s.env d.value
    let t := v.note.type
    pure { s with
      values := s.values.insert d.name t
      order := d.name :: s.order
      env := s.env.extendGlobal d.name t
      decls := .value { note := ⟨d.note, t, none⟩, name := d.name, value := v } :: s.decls }

/-! ### Closing -/

def foldDecl {σ : Type} (f : σ → Typed → σ) (s : σ) : Decl Typed → σ
  | .fn d => d.body.foldNotes f (f s d.note)
  | .value d => d.value.foldNotes f (f s d.note)
  | .type d => f s d.note

def mapDecl (f : Typed → Typed) : Decl Typed → Decl Typed
  | .fn d => .fn { d with note := f d.note, body := d.body.mapNotes f }
  | .value d => .value { d with note := f d.note, value := d.value.mapNotes f }
  | .type d => .type { d with note := f d.note }

def quantifiedVars (functions : NameMap Function) : List VarId :=
  functions.values.flatMap fun f => match f.type with
    | .scheme vars _ => vars
    | _ => []

/-- Binds to `int` the numeric variables of a type that are not to be kept. -/
def defaultNumeric (keep : List VarId) (s : Subst) (t : Ty) : Subst :=
  let (t, s) := s.resolve t
  t.numericIds.foldl (fun s id => if keep.contains id then s else s.bind id .int) s

def closeType (s : Subst) (t : Ty) : Ty := (s.resolve t).1.dropIdle

/-- The types a function was used at, listed latest first, once all variables are settled. A variable
that a quantifier binds is settled like any other of its number; uses that come out alike are one. -/
def closeUses (s : Subst) (uses : List Ty) : List Ty :=
  uses.foldr (fun t kept =>
    let t := (s.resolve t).1
    if t.hasVars || kept.any (·.text == t.text) then kept else t :: kept) []

/-- Closes a checked module under the substitution that inference ended with. -/
def Checked.close (c : Checked) (s : Subst) : Checked :=
  let keep := quantifiedVars c.functions
  let visit (s : Subst) (n : Typed) : Subst := defaultNumeric keep s n.type
  let s := c.module.decls.foldl (foldDecl visit) s
  let s := match c.module.main with
    | some e => e.foldNotes visit s
    | none => s
  let note (n : Typed) : Typed := { n with type := closeType s n.type }
  let module := { c.module with
    decls := c.module.decls.map (mapDecl note)
    main := c.module.main.map (·.mapNotes note) }
  let closeFn (f : Function) : Function :=
    { decl := { f.decl with note := note f.decl.note, body := f.decl.body.mapNotes note },
      type := closeType s f.type }
  { c with
    module
    functions := c.functions.map closeFn
    values := c.values.map (closeType s)
    uses := c.uses.map (closeUses s)
    main := c.main.map (closeType s) }

/-- The names in scope before functions and values: the built-in ones, those of imports, and the
constructors of all sum types. -/
def openScope (importer : Option Importer) (m : Module Position) : Infer Progress := do
  let env ← baseEnv
  let env ← m.imports.foldlM (importModule importer m.note) env
  m.decls.foldlM (fun s d => match d with
    | .type d => declareType s d
    | _ => pure s) { env }

def inferModule (host : Host.Resolver) (importer : Option Importer) (m : Module Position) :
    Infer Checked := do
  let s ← openScope importer m
  let s ← m.decls.foldlM (inferDecl host) s
  let main ← match m.main with
    | some e => do pure (some (← infer host s.env e))
    | none => pure none
  let st ← get
  let checked : Checked :=
    { module := { m with note := ⟨m.note, .unit, none⟩, decls := s.decls.reverse, main }
      functions := s.functions
      values := s.values
      ctors := st.ctors
      sums := st.sums
      imports := st.imports
      uses := st.uses
      order := s.order.reverse
      main := main.map (·.note.type) }
  pure (checked.close st.subst)

def check (host : Host.Resolver) (importer : Option Importer) (m : Module Position) :
    Except Diagnostic Checked :=
  match (inferModule host importer m).run {} with
  | .ok c _ => .ok c
  | .error d _ => .error d

end StackML.Typing
