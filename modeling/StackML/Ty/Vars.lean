import StackML.Ty.Basic

/-!
The variables of a type. `Ty.occurrences` lists the free ones from left to right, each with its
kind; the sets below are read off that list.
-/

namespace StackML.Ty

mutual
/-- The free variables from left to right, with whether each occurrence is numeric. Variables that
an inner scheme quantifies are not free. -/
def occurrences : Ty → List (VarId × Bool)
  | var id => [(id, false)]
  | num id => [(id, true)]
  | list a => a.occurrences
  | result a b => a.occurrences ++ b.occurrences
  | fn a b => a.occurrences ++ b.occurrences
  | app _ as => occurrencesAll as
  | scheme vars a => a.occurrences.filter fun o => !vars.contains o.1
  | _ => []

def occurrencesAll : List Ty → List (VarId × Bool)
  | [] => []
  | a :: as => a.occurrences ++ occurrencesAll as
end

def freeVars (t : Ty) : List VarId := (t.occurrences.map (·.1)).eraseDups

/-- The free numeric variables, each once, by first numeric occurrence. -/
def numericIds (t : Ty) : List VarId :=
  ((t.occurrences.filter (·.2)).map (·.1)).eraseDups

def hasVars (t : Ty) : Bool := !t.occurrences.isEmpty

def unquantified : Ty → Ty
  | scheme _ a => a.unquantified
  | t => t

/-- Whether a variable of a scheme's body is numeric: the last free occurrence decides. -/
def isNumericIn (body : Ty) (id : VarId) : Bool :=
  match (body.unquantified.occurrences.filter (·.1 == id)).getLast? with
  | some (_, numeric) => numeric
  | none => false

end StackML.Ty
