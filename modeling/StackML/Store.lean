import StackML.Bundle.Basic
import StackML.Failure

/-!
The store of published modules: the descriptor and the bundle of each, in byte order of their names.
A store that was closed refuses everything.
-/

namespace StackML

structure Published where
  unit : String
  descriptor : String
  bundle : List UInt8

structure Store where
  modules : NameMap Published := .empty
  isOpen : Bool := true

namespace Store

/-- An operation on an open store; `context` says what was tried. -/
def whenOpen {α : Type} (s : Store) (context : String) (result : α) : Except Failure α :=
  if s.isOpen then .ok result else .error ((Failure.plain "sql: database is closed").within context)

def publish (s : Store) (unit : String) (i : Interface) (bundle : List UInt8) :
    Except Failure Store :=
  s.whenOpen ("publish " ++ i.module)
    { s with modules := s.modules.insert i.module ⟨unit, i.render, bundle⟩ }

/-- A published module with its descriptor, which has at least the name it is stored under. -/
def lookup (s : Store) (module : String) : Except Failure (Interface × Published) := do
  let found ← s.whenOpen ("lookup " ++ module) (s.modules.get? module)
  match found with
  | none => throw ((Failure.plain "module not found").within module)
  | some p =>
    match Interface.parse p.descriptor with
    | .error e =>
      throw ((Failure.ofInterface e).within ("module " ++ module ++ " has a malformed descriptor"))
    | .ok i => pure ({ i with module := if i.module.isEmpty then module else i.module }, p)

def names (s : Store) : Except Failure (List String) := s.whenOpen "list modules" s.modules.names

def remove (s : Store) (module : String) : Except Failure Store :=
  s.whenOpen ("remove " ++ module) { s with modules := s.modules.erase module }

def close (s : Store) : Store := { s with isOpen := false }

def artifacts (s : Store) (module : String) : Except Failure (List Artifact) := do
  let (_, p) ← s.lookup module
  match Bundle.deserialize p.bundle with
  | .error e =>
    throw ((Failure.plain e.message).within
      ("bundle of " ++ module ++ " (unit " ++ p.unit ++ ")"))
  | .ok b =>
    if b.module ≠ (module : Text) then
      throw (.plain ("bundle stored under " ++ module ++ " holds module " ++ b.module.display))
    pure b.artifacts

end Store
end StackML
