import StackML.NameMap
import StackML.Ty.Scheme
import StackML.Ty.Subst

/-!
What is known about the names in scope. Extending an environment leaves the one it came from as it
was, so that neighbouring scopes do not see each other's names.
-/

namespace StackML.Typing

structure Binding where
  type : Ty
  global : Bool := false
  deriving Inhabited, Repr

abbrev Env := NameMap Binding

namespace Env

def extend (env : Env) (name : String) (type : Ty) : Env := env.insert name { type }

def extendGlobal (env : Env) (name : String) (type : Ty) : Env :=
  env.insert name { type, global := true }

/-- The variables that are free in the environment once its types are resolved. -/
def freeVars (env : Env) (s : Subst) : List VarId × Subst :=
  env.entries.foldl (fun (ids, s) (_, b) =>
    let (t, s) := s.resolve b.type
    (t.freeVars ++ ids, s)) ([], s)

end Env
end StackML.Typing
