import StackML.Ty.Replace

/-!
Quantification: generalizing a type over the variables its surroundings do not fix, instantiating
it with fresh ones, and dropping quantifiers that have become idle.
-/

namespace StackML.Ty

/-- Quantifies the free variables outside `fixed`; a type with none is left as it is. -/
def generalize (t : Ty) (fixed : List VarId) : Ty :=
  match t.freeVars.filter fun id => !fixed.contains id with
  | [] => t
  | vars => scheme vars t

/-- Fresh variables for the quantified ones, of the same kinds, numbered after `last`. -/
def freshMapping (body : Ty) : List VarId → (last : VarId) → Mapping × VarId
  | [], last => ([], last)
  | id :: rest, last =>
    let (m, final) := freshMapping body rest (last + 1)
    (m ++ [(id, ofVar (last + 1) (body.isNumericIn id))], final)

/-- Replaces the quantified variables of a scheme by fresh ones numbered after `last`, and gives
the last number used. Other types stay as they are. -/
def instantiate (t : Ty) (last : VarId) : Ty × VarId :=
  match t with
  | scheme vars body =>
    let (m, final) := freshMapping body vars last
    (body.replace m, final)
  | t => (t, last)

/-- Drops the quantified variables that do not occur, and the scheme when none is left. -/
def dropIdle : Ty → Ty
  | scheme vars body =>
    let free := body.freeVars
    match vars.filter free.contains with
    | [] => body
    | vars => scheme vars body
  | t => t

end StackML.Ty
