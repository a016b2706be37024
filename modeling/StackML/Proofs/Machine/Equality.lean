import Mathlib.Data.List.Forall2
import StackML.Machine.Value

/-!
Structural equality of boxed values. What it looks at is the shape of a value: unit and nothing are
one, and of a constructed value only the module, the constructor and the payload count. On values
without doubles, functions and host objects two values are equal exactly when their shapes are the
same, which makes equality an equivalence there.
-/

namespace StackML.Value

inductive Structural : Value → Prop where
  | null : Structural .null
  | unit : Structural .unit
  | int (n : Int64) : Structural (.int n)
  | bool (b : Bool) : Structural (.bool b)
  | str (t : Text) : Structural (.str t)
  | list {elems : List Value} : (∀ v ∈ elems, Structural v) → Structural (.list elems)
  | holder {payload : Value} (cls : HolderClass) :
      Structural payload → Structural (.holder cls payload)

mutual
/-- What equality looks at. -/
def shape : Value → Value
  | null | unit => unit
  | list elems => list (shapes elems)
  | holder cls payload => holder ⟨cls.owner, cls.name, .empty, 0, false⟩ payload.shape
  | v => v

def shapes : List Value → List Value
  | [] => []
  | v :: vs => v.shape :: shapes vs
end

theorem shapes_eq (vs : List Value) : shapes vs = vs.map shape := by
  induction vs with
  | nil => rfl
  | cons v vs ih => rw [shapes, ih, List.map_cons]

theorem equalAll_iff (as bs : List Value) :
    equalAll as bs = true ↔ List.Forall₂ (fun a b => a.equal b = true) as bs := by
  induction as generalizing bs with
  | nil => cases bs <;> simp [equalAll]
  | cons a as ih =>
    cases bs with
    | nil => simp [equalAll]
    | cons b bs => simp [equalAll, ih]

theorem equal_list_iff (as bs : List Value) :
    (list as).equal (list bs) = true ↔
      as.length = bs.length ∧
        ∀ (i : Nat) (h : i < as.length) (h' : i < bs.length),
          (as.get ⟨i, h⟩).equal (bs.get ⟨i, h'⟩) = true := by
  rw [equal, equalAll_iff, List.forall₂_iff_get]

theorem equal_holder_iff (c d : HolderClass) (p q : Value) :
    (holder c p).equal (holder d q) = true ↔
      c.owner = d.owner ∧ c.name = d.name ∧ p.equal q = true := by
  simp [equal, and_assoc]

theorem forall₂_shape {as : List Value} (bs : List Value)
    (each : ∀ a ∈ as, ∀ b, a.equal b = true ↔ a.shape = b.shape) :
    List.Forall₂ (fun a b => a.equal b = true) as bs ↔ as.map shape = bs.map shape := by
  induction as generalizing bs with
  | nil => cases bs <;> simp
  | cons a as ih =>
    obtain ⟨first, rest⟩ := List.forall_mem_cons.1 each
    cases bs with
    | nil => simp
    | cons b bs => simp [first, ih bs rest]

theorem Structural.equal_iff {a : Value} (h : a.Structural) (b : Value) :
    a.equal b = true ↔ a.shape = b.shape := by
  induction h generalizing b with
  | null | unit | int | bool | str => cases b <;> simp [equal, isUnit, shape]
  | list _ ih =>
    cases b with
    | list bs => rw [equal, equalAll_iff, forall₂_shape bs ih, shape, shape, shapes_eq, shapes_eq,
        list.injEq]
    | _ => simp [equal, shape]
  | holder c _ ih =>
    cases b with
    | holder d q => simp [equal_holder_iff, shape, ih, and_assoc]
    | _ => simp [equal, shape]

theorem Structural.equal_refl {a : Value} (h : a.Structural) : a.equal a = true :=
  (h.equal_iff a).2 rfl

theorem Structural.equal_symm {a b : Value} (h : a.Structural) (h' : b.Structural)
    (same : a.equal b = true) : b.equal a = true :=
  (h'.equal_iff a).2 ((h.equal_iff b).1 same).symm

theorem Structural.equal_trans {a b c : Value} (h : a.Structural) (h' : b.Structural)
    (first : a.equal b = true) (second : b.equal c = true) : a.equal c = true :=
  (h.equal_iff c).2 (((h.equal_iff b).1 first).trans ((h'.equal_iff c).1 second))

end StackML.Value
