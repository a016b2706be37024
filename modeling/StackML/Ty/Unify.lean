import StackML.Ty.Subst
import StackML.Ty.Text

/-!
Unification. `Subst.unify` extends a substitution so that two types become equal, or says why it
cannot; what was bound before a failure stays bound. A numeric variable accepts only `int`,
`double` and other numeric variables. Schemes unify with variables only.
-/

namespace StackML

inductive UnifyError where
  | mismatch (left right : Ty)
  | recursive (unknown type : Ty)
  | notNumeric (unknown type : Ty)
  deriving DecidableEq, Repr

namespace UnifyError

def left : UnifyError → Ty
  | mismatch a _ | recursive a _ | notNumeric a _ => a

def right : UnifyError → Ty
  | mismatch _ b | recursive _ b | notNumeric _ b => b

def message : UnifyError → String
  | mismatch a b => "cannot unify " ++ a.text ++ " with " ++ b.text
  | recursive a b => "infinite type detected: " ++ a.text ++ " in " ++ b.text
  | notNumeric _ b => b.text ++ " is not a numeric type"

end UnifyError

namespace Subst

/-- The outcome of unifying: what went wrong, if anything, and the substitution reached. -/
abbrev Unified := Option UnifyError × Subst

/-- Binds a variable to a pruned type unless it is the same variable or occurs in it. -/
def bindVar (s : Subst) (id : VarId) (t : Ty) : Unified :=
  if t = .var id then (none, s)
  else
    match s.occurs id t with
    | (true, s) =>
      let (t, s) := s.resolve t
      (some (.recursive (.var id) t), s)
    | (false, s) => (none, s.bind id t)

def bindNumeric (s : Subst) (id : VarId) (t : Ty) : Unified :=
  match t with
  | .num other => (none, if other = id then s else s.bind id t)
  | .int | .double => (none, s.bind id t)
  | _ => (some (.notNumeric (.num id) t), s)

def Unified.andThen (first : Unified) (next : Subst → Unified) : Unified :=
  match first with
  | (none, s) => next s
  | failed => failed

/-- Unifies two lists of equal length pair by pair with the given unifier. -/
def unifyPairs (unify : Subst → Ty → Ty → Unified) : Subst → List Ty → List Ty → Unified
  | s, a :: as, b :: bs => (unify s a b).andThen fun s => unifyPairs unify s as bs
  | s, _, _ => (none, s)

def unifyWithin : (depth : Nat) → Subst → Ty → Ty → Unified
  | 0, s, a, b => (some (.mismatch a b), s)
  | depth + 1, s, a, b =>
    let (a, s) := s.prune a
    let (b, s) := s.prune b
    match a, b with
    | .var id, b => s.bindVar id b
    | a, .var id => s.bindVar id a
    | .num id, b => s.bindNumeric id b
    | a, .num id => s.bindNumeric id a
    | .fn a₁ a₂, .fn b₁ b₂ =>
      (unifyWithin depth s a₁ b₁).andThen fun s => unifyWithin depth s a₂ b₂
    | .list a, .list b => unifyWithin depth s a b
    | .result a₁ a₂, .result b₁ b₂ =>
      (unifyWithin depth s a₁ b₁).andThen fun s => unifyWithin depth s a₂ b₂
    | .app m as, .app n bs =>
      if m = n ∧ as.length = bs.length then unifyPairs (unifyWithin depth) s as bs
      else (some (.mismatch (.app m as) (.app n bs)), s)
    | .named m, .named n =>
      if m = n then (none, s) else (some (.mismatch (.named m) (.named n)), s)
    | .host m, .host n =>
      if m = n then (none, s) else (some (.mismatch (.host m) (.host n)), s)
    | .int, .int | .double, .double | .string, .string | .bool, .bool | .unit, .unit => (none, s)
    | a, b => (some (.mismatch a b), s)

/-- Makes two types equal. The depth of a walk is bounded by the nodes of the types and of the
bindings, since a path that met a node twice would be a cycle. -/
def unify (s : Subst) (a b : Ty) : Unified :=
  unifyWithin (s.weight + a.size + b.size + 1) s a b

end Subst
end StackML
