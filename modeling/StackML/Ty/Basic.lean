/-!
The types of programs. Variables are numbered; a numeric variable stands for `int` or `double`
only. Functions take one argument at a time, so a function of several arguments is nested to the
right. Equality of types is equality of trees and is decided by `Ty.same`.
-/

namespace StackML

abbrev VarId := Int

/-- A type. `scheme` quantifies the listed variables over its body. `named` is a sum type without
parameters, `app` one applied to arguments, `host` a type of the host platform. -/
inductive Ty where
  | int
  | double
  | string
  | bool
  | unit
  | list (elem : Ty)
  | result (ok error : Ty)
  | var (id : VarId)
  | num (id : VarId)
  | fn (param result : Ty)
  | scheme (vars : List VarId) (body : Ty)
  | named (name : String)
  | app (name : String) (args : List Ty)
  | host (name : String)
  deriving Inhabited, Repr

namespace Ty

mutual
def same : Ty → Ty → Bool
  | int, int => true
  | double, double => true
  | string, string => true
  | bool, bool => true
  | unit, unit => true
  | list a, list b => same a b
  | result a b, result c d => same a c && same b d
  | var a, var b => a == b
  | num a, num b => a == b
  | fn a b, fn c d => same a c && same b d
  | scheme vs a, scheme ws b => vs == ws && same a b
  | named a, named b => a == b
  | app m as, app n bs => m == n && sameAll as bs
  | host a, host b => a == b
  | _, _ => false

def sameAll : List Ty → List Ty → Bool
  | [], [] => true
  | a :: as, b :: bs => same a b && sameAll as bs
  | _, _ => false
end

mutual
theorem eq_of_same : (a b : Ty) → same a b = true → a = b
  | int, b, h => by cases b <;> simp_all [same]
  | double, b, h => by cases b <;> simp_all [same]
  | string, b, h => by cases b <;> simp_all [same]
  | bool, b, h => by cases b <;> simp_all [same]
  | unit, b, h => by cases b <;> simp_all [same]
  | list a, b, h => by
    cases b <;> simp [same] at h
    rw [eq_of_same a _ h]
  | result a c, b, h => by
    cases b <;> simp [same] at h
    rw [eq_of_same a _ h.1, eq_of_same c _ h.2]
  | var a, b, h => by cases b <;> simp_all [same]
  | num a, b, h => by cases b <;> simp_all [same]
  | fn a c, b, h => by
    cases b <;> simp [same] at h
    rw [eq_of_same a _ h.1, eq_of_same c _ h.2]
  | scheme vs a, b, h => by
    cases b <;> simp [same] at h
    rw [h.1, eq_of_same a _ h.2]
  | named a, b, h => by cases b <;> simp_all [same]
  | app m as, b, h => by
    cases b <;> simp [same] at h
    rw [h.1, eq_of_sameAll as _ h.2]
  | host a, b, h => by cases b <;> simp_all [same]

theorem eq_of_sameAll : (as bs : List Ty) → sameAll as bs = true → as = bs
  | [], bs, h => by cases bs <;> simp_all [sameAll]
  | a :: as, bs, h => by
    cases bs <;> simp [sameAll] at h
    rw [eq_of_same a _ h.1, eq_of_sameAll as _ h.2]
end

mutual
theorem same_self : (a : Ty) → same a a = true
  | int | double | string | bool | unit => by simp [same]
  | var _ | num _ | named _ | host _ => by simp [same]
  | list a => by simp [same, same_self a]
  | result a b => by simp [same, same_self a, same_self b]
  | fn a b => by simp [same, same_self a, same_self b]
  | scheme _ a => by simp [same, same_self a]
  | app _ as => by simp [same, sameAll_self as]

theorem sameAll_self : (as : List Ty) → sameAll as as = true
  | [] => by simp [sameAll]
  | a :: as => by simp [sameAll, same_self a, sameAll_self as]
end

theorem same_iff (a b : Ty) : same a b = true ↔ a = b :=
  ⟨eq_of_same a b, fun h => h ▸ same_self a⟩

instance : DecidableEq Ty := fun a b => decidable_of_iff _ (same_iff a b)

mutual
def size : Ty → Nat
  | list a => a.size + 1
  | result a b => a.size + b.size + 1
  | fn a b => a.size + b.size + 1
  | scheme _ a => a.size + 1
  | app _ as => sizeAll as + 1
  | _ => 1

def sizeAll : List Ty → Nat
  | [] => 0
  | a :: as => a.size + sizeAll as
end

/-- The function type from the parameters, in order, to the result. -/
def fns (params : List Ty) (result : Ty) : Ty := params.foldr fn result

/-- Takes up to `n` parameters off a function type; fewer when it has fewer. -/
def split : Ty → Nat → List Ty × Ty
  | fn param rest, n + 1 =>
    let (params, last) := rest.split n
    (param :: params, last)
  | t, _ => ([], t)

def arity : Ty → Nat
  | fn _ rest => rest.arity + 1
  | _ => 0

def body : Ty → Ty
  | scheme _ a => a
  | t => t

def isPolymorphic : Ty → Bool
  | scheme vars _ => !vars.isEmpty
  | _ => false

def isVar : Ty → Bool
  | var _ | num _ => true
  | _ => false

def varId? : Ty → Option VarId
  | var id => some id
  | num id => some id
  | _ => none

def ofVar (id : VarId) (numeric : Bool) : Ty := if numeric then num id else var id

end Ty
end StackML
