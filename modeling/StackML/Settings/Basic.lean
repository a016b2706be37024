import StackML.Host.Member
import StackML.Names

/-!
Settings of a workspace. What a file leaves out has a default; what it gives is checked.
-/

namespace StackML

structure Settings where
  /-- The name of modules that carry none. -/
  module : String := ""
  level : String := ""
  color : String := ""
  packagesDir : String := ""
  reflective : Bool := false
  bindings : List Host.Binding := []
  dsn : String := ""
  deriving DecidableEq, Repr, Inhabited

namespace Settings

def orDefault (value other : String) : String := if value.isEmpty then other else value

def withDefaults (s : Settings) : Settings :=
  { s with
    module := orDefault s.module Names.defaultModule
    level := orDefault s.level "info"
    color := orDefault s.color "auto"
    packagesDir := orDefault s.packagesDir "."
    bindings := s.bindings.map fun b => { b with kind := orDefault b.kind "func" } }

def default : Settings := withDefaults {}

inductive Issue where
  | level (value : String)
  | color (value : String)
  | unnamed (index : Nat)
  | noSignature (index : Nat) (owner member : String)
  | kind (index : Nat) (owner member value : String)
  deriving DecidableEq, Repr

def bindingText (index : Nat) (owner member : String) : String :=
  "host.bindings[" ++ toString index ++ "] (" ++ owner ++ "." ++ member ++ ")"

def Issue.message : Issue → String
  | level value => "log.level: unknown level " ++ Text.quoted value
  | color value => "log.color: must be auto, always or never, got " ++ Text.quoted value
  | unnamed index =>
    "host.bindings[" ++ toString index ++ "]: owner and member are required"
  | noSignature index owner member => bindingText index owner member ++ ": signature is required"
  | kind index owner member value =>
    bindingText index owner member ++ ": unknown kind " ++ Text.quoted value

def bindingIssue? : (index : Nat) → List Host.Binding → Option Issue
  | _, [] => none
  | index, b :: rest =>
    if b.owner.isEmpty || b.member.isEmpty then some (.unnamed index)
    else if b.signature.isEmpty && b.kind != "new" then
      some (.noSignature index b.owner b.member)
    else if (Host.MemberKind.ofText? b.kind).isNone then
      some (.kind index b.owner b.member b.kind)
    else bindingIssue? (index + 1) rest

def issue? (s : Settings) : Option Issue :=
  if !(["", "debug", "info", "warn", "error"].contains s.level) then some (.level s.level)
  else if !(["", "auto", "always", "never"].contains s.color) then some (.color s.color)
  else bindingIssue? 0 s.bindings

end Settings
end StackML
