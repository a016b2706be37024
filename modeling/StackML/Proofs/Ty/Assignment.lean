import Mathlib.Data.List.Basic
import StackML.Ty.Scheme

/-!
Assignments of types to variables, the two kinds of variables apart, and what they do to a type.
Replacement by a mapping is one of them. A type without quantifiers is determined by what its
occurrences stand for, and assignments compose on it.
-/

namespace StackML

theorem mem_of_lookup {α β : Type} [BEq α] [LawfulBEq α] {l : List (α × β)} {key : α} {b : β}
    (found : l.lookup key = some b) : (key, b) ∈ l := by
  obtain ⟨before, after, rfl, -⟩ := List.lookup_eq_some_iff.1 found
  exact List.mem_append_right _ List.mem_cons_self

namespace Ty

@[elab_as_elim]
theorem induct {P : Ty → Prop} (int : P int) (double : P double) (string : P string)
    (bool : P bool) (unit : P unit) (list : ∀ a, P a → P (list a))
    (result : ∀ a b, P a → P b → P (result a b)) (var : ∀ id, P (var id))
    (num : ∀ id, P (num id)) (fn : ∀ a b, P a → P b → P (fn a b))
    (scheme : ∀ vars a, P a → P (scheme vars a)) (named : ∀ name, P (named name))
    (app : ∀ name as, (∀ a ∈ as, P a) → P (app name as)) (host : ∀ name, P (host name)) :
    ∀ t, P t := by
  intro t
  refine @Ty.rec P (fun as => ∀ a ∈ as, P a)
    int double string bool unit list result var num fn scheme named app host ?_ ?_ t
  · intro a member
    cases member
  · intro a as first rest b member
    rcases List.mem_cons.1 member with rfl | later
    · exact first
    · exact rest b later

mutual
/-- Whether a type has no quantifier in it. -/
def isMono : Ty → Bool
  | scheme _ _ => false
  | list a => a.isMono
  | result a b => a.isMono && b.isMono
  | fn a b => a.isMono && b.isMono
  | app _ as => isMonoAll as
  | _ => true

def isMonoAll : List Ty → Bool
  | [] => true
  | a :: as => a.isMono && isMonoAll as
end

theorem isMonoAll_eq (as : List Ty) : isMonoAll as = as.all isMono := by
  induction as with
  | nil => rfl
  | cons a as ih => simp [isMonoAll, ih]

theorem occurrencesAll_eq (as : List Ty) : occurrencesAll as = as.flatMap occurrences := by
  induction as with
  | nil => rfl
  | cons a as ih => simp [occurrencesAll, ih]

theorem mem_freeVars {t : Ty} {id : VarId} : id ∈ t.freeVars ↔ ∃ o ∈ t.occurrences, o.1 = id := by
  rw [freeVars, List.mem_eraseDups, List.mem_map]

theorem mem_numericIds {t : Ty} {id : VarId} : id ∈ t.numericIds ↔ (id, true) ∈ t.occurrences := by
  simp only [numericIds, List.mem_eraseDups, List.mem_map, List.mem_filter]
  constructor
  · rintro ⟨⟨_, _⟩, ⟨occurs, rfl⟩, rfl⟩
    exact occurs
  · intro occurs
    exact ⟨(id, true), ⟨occurs, rfl⟩, rfl⟩

theorem replaceAll_eq (m : Mapping) (as : List Ty) : replaceAll m as = as.map (replace m) := by
  induction as with
  | nil => rfl
  | cons a as ih => simp [replaceAll, ih]

end Ty

@[ext] structure Assignment where
  var : VarId → Ty := Ty.var
  num : VarId → Ty := Ty.num

namespace Assignment

/-- What an occurrence of a variable stands for. -/
def get (σ : Assignment) (o : VarId × Bool) : Ty := if o.2 then σ.num o.1 else σ.var o.1

@[simp] theorem get_var (σ : Assignment) (id : VarId) : σ.get (id, false) = σ.var id := rfl

@[simp] theorem get_num (σ : Assignment) (id : VarId) : σ.get (id, true) = σ.num id := rfl

def hide (σ : Assignment) (vars : List VarId) : Assignment where
  var id := if id ∈ vars then .var id else σ.var id
  num id := if id ∈ vars then .num id else σ.num id

structure Kinded (σ : Assignment) : Prop where
  mono : ∀ o, (σ.get o).isMono
  numeric : ∀ id, (σ.num id).fitsNumeric

theorem kinded_default : Kinded {} := by
  refine ⟨?_, fun id => rfl⟩
  rintro ⟨id, _ | _⟩ <;> rfl

def Unbound (σ : Assignment) (id : VarId) : Prop := σ.var id = .var id ∧ σ.num id = .num id

def AgreesOff (σ τ : Assignment) (vars : List VarId) : Prop :=
  ∀ id, id ∉ vars → σ.var id = τ.var id ∧ σ.num id = τ.num id

def ofMapping (m : Mapping) : Assignment where
  var id := (m.get? id).getD (.var id)
  num id := (m.get? id).getD (.num id)

end Assignment

namespace Ty

mutual
/-- Puts for each free variable what it stands for. -/
def assign (σ : Assignment) : Ty → Ty
  | var id => σ.var id
  | num id => σ.num id
  | list a => list (a.assign σ)
  | result a b => result (a.assign σ) (b.assign σ)
  | fn a b => fn (a.assign σ) (b.assign σ)
  | app name as => app name (assignAll σ as)
  | scheme vars a => scheme vars (a.assign (σ.hide vars))
  | t => t

def assignAll (σ : Assignment) : List Ty → List Ty
  | [] => []
  | a :: as => a.assign σ :: assignAll σ as
end

theorem assignAll_eq (σ : Assignment) (as : List Ty) : assignAll σ as = as.map (assign σ) := by
  induction as with
  | nil => rfl
  | cons a as ih => simp [assignAll, ih]

end Ty

namespace Assignment

def comp (σ τ : Assignment) : Assignment where
  var id := (σ.var id).assign τ
  num id := (σ.num id).assign τ

theorem get_comp (σ τ : Assignment) (o : VarId × Bool) :
    (σ.comp τ).get o = (σ.get o).assign τ := by
  unfold get comp
  split <;> rfl

theorem get_hide (σ : Assignment) (vars : List VarId) (o : VarId × Bool) :
    (σ.hide vars).get o = if o.1 ∈ vars then ({} : Assignment).get o else σ.get o := by
  unfold get hide
  split <;> simp

theorem hide_default (vars : List VarId) : ({} : Assignment).hide vars = {} := by
  simp [hide]

theorem ofMapping_without (m : Mapping) (vars : List VarId) :
    ofMapping (m.without vars) = (ofMapping m).hide vars := by
  have find : ∀ id, (m.without vars).get? id = if id ∈ vars then none else m.get? id := by
    intro id
    induction m with
    | nil => simp [Mapping.without, Mapping.get?]
    | cons e m ih =>
      unfold Mapping.without Mapping.get? at ih ⊢
      rw [List.filter_cons]
      split <;> by_cases same : id = e.1 <;> grind
  ext id <;> simp only [ofMapping, hide, find] <;> split <;> rfl

end Assignment

namespace Ty

theorem assign_congr {σ τ : Assignment} {t : Ty}
    (same : ∀ o ∈ t.occurrences, σ.get o = τ.get o) : t.assign σ = t.assign τ := by
  induction t using induct generalizing σ τ with
  | int | double | string | bool | unit | named | host => rfl
  | var id => exact same (id, false) (by simp [occurrences])
  | num id => exact same (id, true) (by simp [occurrences])
  | list a ih => rw [assign, assign, ih same]
  | result a b iha ihb | fn a b iha ihb =>
    rw [assign, assign, iha fun o h => same o (by simp [occurrences, h]),
      ihb fun o h => same o (by simp [occurrences, h])]
  | scheme vars a ih =>
    have inner : a.assign (σ.hide vars) = a.assign (τ.hide vars) := by
      refine ih fun o member => ?_
      rw [Assignment.get_hide, Assignment.get_hide]
      split
      · rfl
      · next outside => exact same o (by simp [occurrences, member, outside])
    rw [assign, assign, inner]
  | app name as ih =>
    simp only [assign, assignAll_eq, app.injEq, true_and]
    refine List.map_congr_left fun a member => ih a member fun o occurs => same o ?_
    simp only [occurrences, occurrencesAll_eq, List.mem_flatMap]
    exact ⟨a, member, occurs⟩

@[simp] theorem assign_default (t : Ty) : t.assign {} = t := by
  induction t using induct with
  | int | double | string | bool | unit | named | host | var | num => rfl
  | list a ih => rw [assign, ih]
  | result a b iha ihb | fn a b iha ihb => rw [assign, iha, ihb]
  | scheme vars a ih => rw [assign, Assignment.hide_default, ih]
  | app name as ih =>
    rw [assign, assignAll_eq, List.map_congr_left ih]
    simp

theorem assign_assign {t : Ty} (mono : t.isMono) (σ τ : Assignment) :
    (t.assign σ).assign τ = t.assign (σ.comp τ) := by
  induction t using induct with
  | int | double | string | bool | unit | named | host | var | num => rfl
  | list a ih => rw [assign, assign, assign, ih mono]
  | result a b iha ihb | fn a b iha ihb =>
    simp only [isMono, Bool.and_eq_true] at mono
    rw [assign, assign, assign, iha mono.1, ihb mono.2]
  | scheme vars a ih => simp [isMono] at mono
  | app name as ih =>
    simp only [isMono, isMonoAll_eq, List.all_eq_true] at mono
    simp only [assign, assignAll_eq, List.map_map, app.injEq, true_and]
    exact List.map_congr_left fun a member => ih a member (mono a member)

theorem replace_eq_assign (t : Ty) (m : Mapping) : t.replace m = t.assign (.ofMapping m) := by
  induction t using induct generalizing m with
  | int | double | string | bool | unit | named | host | var | num => rfl
  | list a ih => rw [replace, assign, ih]
  | result a b iha ihb | fn a b iha ihb => rw [replace, assign, iha, ihb]
  | scheme vars a ih => rw [replace, assign, ih, Assignment.ofMapping_without]
  | app name as ih =>
    simp only [replace, assign, replaceAll_eq, assignAll_eq, app.injEq, true_and]
    exact List.map_congr_left fun a member => ih a member m

theorem mem_occurrences_assign {t : Ty} (mono : t.isMono) (σ : Assignment) (o : VarId × Bool) :
    o ∈ (t.assign σ).occurrences ↔ ∃ v ∈ t.occurrences, o ∈ (σ.get v).occurrences := by
  induction t using induct with
  | int | double | string | bool | unit | named | host => simp [assign, occurrences]
  | var id | num id => simp [assign, occurrences]
  | list a ih => simpa [assign, occurrences] using ih mono
  | result a b iha ihb | fn a b iha ihb =>
    simp only [isMono, Bool.and_eq_true] at mono
    simp only [assign, occurrences, List.mem_append, iha mono.1, ihb mono.2]
    grind
  | scheme vars a ih => simp [isMono] at mono
  | app name as ih =>
    simp only [isMono, isMonoAll_eq, List.all_eq_true] at mono
    simp only [assign, occurrences, assignAll_eq, occurrencesAll_eq, List.mem_flatMap,
      List.mem_map]
    constructor
    · rintro ⟨_, ⟨a, member, rfl⟩, occurs⟩
      obtain ⟨v, inside, found⟩ := (ih a member (mono a member)).1 occurs
      exact ⟨v, ⟨a, member, inside⟩, found⟩
    · rintro ⟨v, ⟨a, member, inside⟩, found⟩
      exact ⟨_, ⟨a, member, rfl⟩, (ih a member (mono a member)).2 ⟨v, inside, found⟩⟩

theorem isMono_assign {t : Ty} (mono : t.isMono) {σ : Assignment}
    (each : ∀ o ∈ t.occurrences, (σ.get o).isMono) : (t.assign σ).isMono := by
  induction t using induct with
  | int | double | string | bool | unit | named | host => rfl
  | var id => exact each (id, false) (by simp [occurrences])
  | num id => exact each (id, true) (by simp [occurrences])
  | list a ih => exact ih mono each
  | result a b iha ihb | fn a b iha ihb =>
    simp only [isMono, Bool.and_eq_true] at mono
    simp only [assign, isMono, Bool.and_eq_true]
    exact ⟨iha mono.1 fun o h => each o (by simp [occurrences, h]),
      ihb mono.2 fun o h => each o (by simp [occurrences, h])⟩
  | scheme vars a ih => simp [isMono] at mono
  | app name as ih =>
    simp only [isMono, isMonoAll_eq, List.all_eq_true] at mono
    simp only [assign, isMono, isMonoAll_eq, assignAll_eq, List.all_map, List.all_eq_true]
    intro a member
    refine ih a member (mono a member) fun o occurs => each o ?_
    simp only [occurrences, occurrencesAll_eq, List.mem_flatMap]
    exact ⟨a, member, occurs⟩

theorem get_eq_of_assign_eq {σ τ : Assignment} {t : Ty} (mono : t.isMono)
    (same : t.assign σ = t.assign τ) : ∀ o ∈ t.occurrences, σ.get o = τ.get o := by
  induction t using induct with
  | int | double | string | bool | unit | named | host => simp [occurrences]
  | var id | num id =>
    intro o occurs
    rw [occurrences, List.mem_singleton] at occurs
    subst occurs
    exact same
  | list a ih =>
    rw [assign, assign, list.injEq] at same
    exact ih mono same
  | result a b ihA ihB | fn a b ihA ihB =>
    simp only [isMono, Bool.and_eq_true] at mono
    simp only [assign, result.injEq, fn.injEq] at same
    intro o occurs
    rcases List.mem_append.1 occurs with left | right
    · exact ihA mono.1 same.1 o left
    · exact ihB mono.2 same.2 o right
  | scheme vars a => simp [isMono] at mono
  | app name as ih =>
    simp only [isMono, isMonoAll_eq, List.all_eq_true] at mono
    simp only [assign, assignAll_eq, app.injEq, true_and] at same
    intro o occurs
    rw [occurrences, occurrencesAll_eq, List.mem_flatMap] at occurs
    obtain ⟨a, member, inside⟩ := occurs
    exact ih a member (mono a member) (List.map_inj_left.1 same a member) o inside

end Ty
end StackML
