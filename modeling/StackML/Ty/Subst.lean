import Std.Data.TreeMap
import StackML.Ty.Basic

/-!
Substitutions built by unification. A binding may mention further bound variables; `prune` follows
them to the end and shortens the path it took, `resolve` does so everywhere in a type. Every walk
has a bound: no path follows more bindings than there are, and no walk of two types goes deeper
than the nodes of both and of all bindings together.
-/

namespace StackML

structure Subst where
  bindings : Std.TreeMap VarId Ty compare := {}
  weight : Nat := 0

namespace Subst

def empty : Subst := {}

def size (s : Subst) : Nat := s.bindings.size

def get? (s : Subst) (id : VarId) : Option Ty := s.bindings.get? id

def bind (s : Subst) (id : VarId) (t : Ty) : Subst :=
  ⟨s.bindings.insert id t, s.weight + t.size⟩

/-- Follows at most `hops` bindings and binds each variable on the way to the end of it. -/
def follow : (hops : Nat) → Subst → Ty → Ty × Subst
  | 0, s, t => (t, s)
  | hops + 1, s, t =>
    match t.varId? with
    | none => (t, s)
    | some id =>
      match s.get? id with
      | none => (t, s)
      | some next =>
        let (root, s) := follow hops s next
        (root, if root = next then s else s.bind id root)

/-- The unbound variable or the non-variable that the bindings of a variable lead to. -/
def prune (s : Subst) (t : Ty) : Ty × Subst := follow (s.size + 1) s t

end Subst

namespace Ty

mutual
/-- Rebuilds a type with its variables replaced from left to right, passing a state along.
Quantified variables are replaced like all others. -/
def mapVars {σ : Type} (f : σ → Ty → Ty × σ) (s : σ) : Ty → Ty × σ
  | var id => f s (var id)
  | num id => f s (num id)
  | list a =>
    let (a, s) := mapVars f s a
    (list a, s)
  | result a b =>
    let (a, s) := mapVars f s a
    let (b, s) := mapVars f s b
    (result a b, s)
  | fn a b =>
    let (a, s) := mapVars f s a
    let (b, s) := mapVars f s b
    (fn a b, s)
  | app name as =>
    let (as, s) := mapVarsAll f s as
    (app name as, s)
  | scheme vars a =>
    let (a, s) := mapVars f s a
    (scheme vars a, s)
  | t => (t, s)

def mapVarsAll {σ : Type} (f : σ → Ty → Ty × σ) (s : σ) : List Ty → List Ty × σ
  | [] => ([], s)
  | a :: as =>
    let (a, s) := mapVars f s a
    let (as, s) := mapVarsAll f s as
    (a :: as, s)
end

/-- The second question is asked only when the first one was denied. -/
def orElse {σ : Type} (first : Bool × σ) (next : σ → Bool × σ) : Bool × σ :=
  if first.1 then first else next first.2

mutual
/-- Whether some variable passes the test, asked from left to right until one does. -/
def anyVar {σ : Type} (f : σ → Ty → Bool × σ) (s : σ) : Ty → Bool × σ
  | var id => f s (var id)
  | num id => f s (num id)
  | list a => anyVar f s a
  | result a b => orElse (anyVar f s a) (fun s => anyVar f s b)
  | fn a b => orElse (anyVar f s a) (fun s => anyVar f s b)
  | app _ as => anyVarAll f s as
  | scheme _ a => anyVar f s a
  | _ => (false, s)

def anyVarAll {σ : Type} (f : σ → Ty → Bool × σ) (s : σ) : List Ty → Bool × σ
  | [] => (false, s)
  | a :: as => orElse (anyVar f s a) (fun s => anyVarAll f s as)
end

end Ty

namespace Subst

/-- Replaces bound variables throughout, through at most `hops` nested bindings. -/
def resolveWithin : (hops : Nat) → Subst → Ty → Ty × Subst
  | 0, s, t => (t, s)
  | hops + 1, s, t =>
    t.mapVars (fun s v =>
      let (root, s) := s.prune v
      if root.isVar then (root, s) else resolveWithin hops s root) s

def resolve (s : Subst) (t : Ty) : Ty × Subst := resolveWithin (s.size + 1) s t

/-- Whether a variable occurs, looking through at most `hops` nested bindings. -/
def occursWithin : (hops : Nat) → VarId → Subst → Ty → Bool × Subst
  | 0, _, s, _ => (false, s)
  | hops + 1, id, s, t =>
    t.anyVar (fun s v =>
      let (root, s) := s.prune v
      match root.varId? with
      | some other => (other == id, s)
      | none => occursWithin hops id s root) s

def occurs (s : Subst) (id : VarId) (t : Ty) : Bool × Subst := occursWithin (s.size + 1) id s t

end Subst
end StackML
