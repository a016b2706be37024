import StackML.Expr.Basic

/-!
The names an expression takes from its surroundings, in order of first use. A nested function
captures those of them that are locals of the method around it.
-/

namespace StackML

variable {α : Type}

def Pattern.names : Pattern α → List String
  | var _ name => [name]
  | cons _ head tail => head.names ++ tail.names
  | build _ _ arg => arg.names
  | _ => []

namespace Expr

/-- Adds a name that is neither bound nor seen yet; names seen are listed latest first. -/
def see (bound seen : List String) (name : String) : List String :=
  if bound.contains name || seen.contains name then seen else name :: seen

mutual
/-- Adds the free names of an expression to those already seen. Qualified names are not names of
the surroundings. -/
def seeNames (bound seen : List String) : Expr α → List String
  | var _ name => see bound seen name
  | interp _ parts => seeParts bound seen parts
  | unary _ _ e => e.seeNames bound seen
  | binary _ _ l r => r.seeNames bound (l.seeNames bound seen)
  | cond _ c t e => e.seeNames bound (t.seeNames bound (c.seeNames bound seen))
  | letIn _ name v b => b.seeNames (name :: bound) (v.seeNames bound seen)
  | letRec _ name _ params fnBody b =>
    b.seeNames (name :: bound) (fnBody.seeNames (params ++ name :: bound) seen)
  | lambda _ params b => b.seeNames (params ++ bound) seen
  | apply _ c args => seeAll bound (c.seeNames bound seen) args
  | sequence _ es => seeAll bound seen es
  | print _ e => e.seeNames bound seen
  | list _ es => seeAll bound seen es
  | cons _ h t => t.seeNames bound (h.seeNames bound seen)
  | matchOn _ e arms => seeArms bound (e.seeNames bound seen) arms
  | build _ _ e => e.seeNames bound seen
  | hostCall _ _ _ args => seeAll bound seen args
  | hostMethod _ r _ args => seeAll bound (r.seeNames bound seen) args
  | _ => seen

def seeAll (bound seen : List String) : List (Expr α) → List String
  | [] => seen
  | e :: es => seeAll bound (e.seeNames bound seen) es

def seeParts (bound seen : List String) : List (Part α) → List String
  | [] => seen
  | .text _ :: ps => seeParts bound seen ps
  | .hole e :: ps => seeParts bound (e.seeNames bound seen) ps

def seeArms (bound seen : List String) : List (Arm α) → List String
  | [] => seen
  | .mk p e :: as => seeArms bound (e.seeNames (p.names ++ bound) seen) as
end

def freeNames (bound : List String) (e : Expr α) : List String := (e.seeNames bound []).reverse

end Expr
end StackML
