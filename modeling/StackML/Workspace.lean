import StackML.Codegen.Module
import StackML.Expr.Print
import StackML.Host.WellKnown
import StackML.Log
import StackML.Machine.Run
import StackML.Settings.Basic
import StackML.Store

/-!
Workspaces compile modules, remember them for later imports, publish them when there is a store, and
run them. What a workspace did is in its log, what programs printed in its output.
-/

namespace StackML

structure Compiled where
  interface : Interface
  artifacts : List Artifact
  bundle : List UInt8
  main : Option Ty

namespace Compiled

def module (c : Compiled) : String := c.interface.module

def mainType (c : Compiled) : String := (c.main.map Signature.render).getD ""

end Compiled

structure Workspace where
  settings : Settings
  host : Host.Resolver
  registry : Host.Registry
  maxFrames : Int
  units : NameMap Compiled := .empty
  store : Option Store := none
  /-- Records and printed texts, latest first. -/
  log : List Log.Record := []
  output : List Text := []

abbrev Work := EStateM Failure Workspace

structure Evaluation where
  value : Value
  heap : Host.Heap

namespace Workspace

def defaultMaxFrames : Int := 4096

def new (settings : Settings) (registry : Host.Registry) (maxFrames : Int)
    (store : Option Store) : Except Failure Workspace :=
  match Host.Resolver.configured settings.bindings settings.reflective with
  | .ok host => .ok { settings, host, registry, maxFrames, store }
  | .error e => .error ((Failure.ofBinding e).within "host bindings")

def liftFailure {α : Type} : Except Failure α → Work α
  | .ok a => pure a
  | .error e => throw e

def record (r : Log.Record) : Work Unit := modify fun w => { w with log := r :: w.log }

def trace (message : String) (attributes : List (String × String)) : Work Unit :=
  record { message, attributes }

def interfaceOf (w : Workspace) (module : String) : Except Failure Interface :=
  match w.units.get? module with
  | some u => .ok u.interface
  | none =>
    match w.store with
    | none => .error ((Failure.plain "module not found").within module)
    | some s => do pure (← s.lookup module).1

def artifactsOf (w : Workspace) (module : String) : Except Failure (List Artifact) :=
  match w.units.get? module with
  | some u => .ok u.artifacts
  | none =>
    match w.store with
    | none => .error ((Failure.plain "module not found").within module)
    | some s => s.artifacts module

def importer (w : Workspace) : Typing.Importer := fun module =>
  (w.interfaceOf module).mapError Failure.text

def loader (w : Workspace) : Loader := fun module =>
  (w.artifactsOf module.display).mapError fun e => e.text

def check (m : Module Position) : Work Typing.Checked := do
  let w ← get
  match Typing.check w.host (some w.importer) m with
  | .error d => throw (.ofDiagnostic d)
  | .ok c =>
    trace "inferred" [("module", m.name), ("functions", toString c.functions.size),
      ("values", toString c.values.size), ("instantiated", toString c.uses.size)]
    pure c

def generate (c : Typing.Checked) : Work (List Artifact) := do
  let name := c.module.name
  let outcome := Codegen.compile c
  for m in outcome.methods do
    trace "emitted method" [("module", name), ("module", name), ("method", m.name.display),
      ("descriptor", m.descriptor.display)]
  match outcome.result with
  | .error e => throw (.ofCodegen e)
  | .ok artifacts =>
    trace "compiled" [("module", name), ("methods", toString outcome.methods.length),
      ("holders", toString (artifacts.length - 1))]
    pure artifacts

def publish (u : Compiled) : Work Unit := do
  match (← get).store with
  | none => pure ()
  | some s =>
    match s.publish "" u.interface u.bundle with
    | .error e => throw (e.within ("publishing " ++ u.module))
    | .ok s =>
      modify fun w => { w with store := some s }
      trace "published" [("module", u.module), ("exports", toString u.interface.exports.length),
        ("bytes", toString u.bundle.length)]

def build (m : Module Position) : Work Compiled := do
  let c ← check m
  let artifacts ← generate c
  match Codegen.describe c (artifacts.headD {}) with
  | .error d => throw (.ofDefect d)
  | .ok interface =>
    pure {
      interface, artifacts, main := c.main
      bundle := Bundle.serialize ⟨m.name, artifacts⟩ }

/-- Compiles a module, publishes it and remembers it. One without a name takes that of the
settings. -/
def compile (m : Module Position) : Work Compiled := do
  let m := { m with name := Settings.orDefault m.name (← get).settings.module }
  let u ← build m
  publish u
  modify fun w => { w with units := w.units.insert u.module u }
  record { level := .info, message := "compiled module", attributes := [("module", u.module)] }
  pure u

def onMachine (maxFrames : Int) (cancelled : Bool) (artifacts : List Artifact)
    (run : Setup → Exec Value) : Work Evaluation := do
  let w ← get
  let setup : Setup := { maxFrames, registry := w.registry, loader := some w.loader }
  let action : Exec Value := do
    Machine.load artifacts
    run setup
  match action.run { cancelled } with
  | .ok value m =>
    modify fun w => { w with output := m.output ++ w.output }
    pure { value, heap := m.heap }
  | .error e m =>
    modify fun w => { w with output := m.output ++ w.output }
    throw (.ofHalt e)

/-- Evaluates the main expression of a compiled module on a new machine. -/
def run (u : Compiled) (cancelled : Bool) : Work Evaluation := do
  let limit := (← get).maxFrames
  let limit := if 0 < limit then limit else defaultMaxFrames
  let e ← onMachine limit cancelled u.artifacts fun setup => Machine.runModule setup u.module
  trace "executed" [("module", u.module)]
  pure e

def call (u : Compiled) (method : String) (args : List Value) (cancelled : Bool) :
    Work Evaluation := do
  onMachine (← get).maxFrames cancelled u.artifacts fun setup =>
    Machine.callMethod setup u.module method args

/-- The report of a failure, coloured if the settings ask for it. -/
def report (w : Workspace) (f : Failure) : String := f.render (Log.useColor w.settings.color)

end Workspace

/-- A dialogue with a workspace: every entry is compiled as a module of its own that holds the
declarations accepted so far. -/
structure Session where
  module : String
  imports : List String := []
  decls : List (Decl Position) := []

namespace Session

def new (w : Workspace) (imports : List String) : Session := { module := w.settings.module, imports }

def entry (s : Session) (more : List (Decl Position)) (main : Option (Expr Position)) :
    Module Position :=
  { note := {}, name := s.module, imports := s.imports, decls := s.decls ++ more, main }

/-- How the type of a new declaration is shown: a sum type by its name. -/
def declaredType (u : Compiled) : Decl Position → String
  | .type d => d.name
  | d => ((u.interface.find? d.name).map Signature.render).getD ""

/-- Accepts a declaration that is well typed, and gives its type. -/
def declare (s : Session) (d : Decl Position) : Work (String × Session) := do
  let u ← Workspace.build (s.entry [d] none)
  Workspace.trace "declared" [("name", d.name)]
  pure (declaredType u d, { s with decls := s.decls ++ [d] })

def eval (s : Session) (e : Expr Position) (cancelled : Bool) : Work (Evaluation × String) := do
  Workspace.trace "eval" [("expr", e.text)]
  let u ← Workspace.build (s.entry [] (some e))
  let v ← Workspace.run u cancelled
  pure (v, u.mainType)

end Session
end StackML
