import StackML.Ty.Vars

/-!
Replacement of variables by types, and its inverse, matching. `Ty.matchWith p c m` extends the
mapping `m` so that replacing in the pattern `p` gives `c`, or reports that no extension does.
-/

namespace StackML

/-- What variables are replaced by; the first entry of a variable counts. -/
abbrev Mapping := List (VarId × Ty)

namespace Mapping

def get? (m : Mapping) (id : VarId) : Option Ty := m.lookup id

def without (m : Mapping) (vars : List VarId) : Mapping := m.filter fun e => !vars.contains e.1

end Mapping

namespace Ty

mutual
/-- Replaces the free variables that the mapping has an entry for. -/
def replace (m : Mapping) : Ty → Ty
  | var id => (m.get? id).getD (var id)
  | num id => (m.get? id).getD (num id)
  | list a => list (a.replace m)
  | result a b => result (a.replace m) (b.replace m)
  | fn a b => fn (a.replace m) (b.replace m)
  | app name as => app name (replaceAll m as)
  | scheme vars a => scheme vars (a.replace (m.without vars))
  | t => t

def replaceAll (m : Mapping) : List Ty → List Ty
  | [] => []
  | a :: as => a.replace m :: replaceAll m as
end

/-- A variable matches the type it already has, or any type if it has none yet. -/
def matchVar (id : VarId) (concrete : Ty) (m : Mapping) : Bool × Mapping :=
  match m.get? id with
  | some previous => (decide (previous = concrete), m)
  | none => (true, (id, concrete) :: m)

/-- The types that a numeric variable of a pattern may stand for. -/
def fitsNumeric : Ty → Bool
  | int | double | num _ => true
  | _ => false

/-- Continues a match with the mapping it left, unless it failed. -/
def thenMatch (first : Bool × Mapping) (next : Mapping → Bool × Mapping) : Bool × Mapping :=
  if first.1 then next first.2 else first

mutual
/-- Matches a pattern against a type, left to right. The mapping holds what was found, also when
the match fails. -/
def matchWith : Ty → Ty → Mapping → Bool × Mapping
  | var id, c, m => matchVar id c m
  | num id, c, m => if c.fitsNumeric then matchVar id c m else (false, m)
  | list p, c, m =>
    match c with
    | list a => p.matchWith a m
    | _ => (false, m)
  | result p q, c, m =>
    match c with
    | result a b => thenMatch (p.matchWith a m) (q.matchWith b)
    | _ => (false, m)
  | fn p q, c, m =>
    match c with
    | fn a b => thenMatch (p.matchWith a m) (q.matchWith b)
    | _ => (false, m)
  | app name ps, c, m =>
    match c with
    | app other as =>
      if other = name ∧ as.length = ps.length then matchAll ps as m else (false, m)
    | _ => (false, m)
  | scheme _ p, c, m => p.matchWith c m
  | p, c, m => (decide (p = c), m)

def matchAll : List Ty → List Ty → Mapping → Bool × Mapping
  | p :: ps, a :: as, m => thenMatch (p.matchWith a m) (matchAll ps as)
  | _, _, m => (true, m)
end

end Ty
end StackML
