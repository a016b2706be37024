import StackML.Proofs.Machine.Descriptor
import StackML.Proofs.Ty.Generality
import StackML.Proofs.Ty.Inversion

/-!
Types that can be written into a descriptor and read back: no name in them has a semicolon. What is put
for the variables of such a type by a match with one is such a type again, and unification makes no other
types of those that it is given.
-/

namespace StackML

/-! ### Names -/

/-- The name may stand in front of a bracket and behind a dot. -/
structure Distinct (name : String) : Prop where
  bracket : '(' ∉ name.toList
  dot : '.' ∉ name.toList

instance (name : String) : Decidable (Distinct name) :=
  decidable_of_iff ('(' ∉ name.toList ∧ '.' ∉ name.toList)
    ⟨fun ⟨bracket, dot⟩ => ⟨bracket, dot⟩, fun h => ⟨h.bracket, h.dot⟩⟩

theorem Distinct.append {a b : String} (first : Distinct a) (second : Distinct b) : Distinct (a ++ b) := by
  constructor <;> rw [String.toList_append, List.mem_append, not_or]
  · exact ⟨first.bracket, second.bracket⟩
  · exact ⟨first.dot, second.dot⟩

/-! ### Types -/

namespace Ty

open Descriptor (Nameable)

mutual
/-- Whether every name in the type can stand in a descriptor. -/
def isLegible : Ty → Bool
  | named name | host name => Nameable name
  | app name as => Nameable name && isLegibleAll as
  | list a | scheme _ a => a.isLegible
  | result a b | fn a b => a.isLegible && b.isLegible
  | _ => true

def isLegibleAll : List Ty → Bool
  | [] => true
  | a :: as => a.isLegible && isLegibleAll as
end

theorem isLegibleAll_eq (as : List Ty) : isLegibleAll as = as.all isLegible := by
  induction as with
  | nil => rfl
  | cons a as ih => simp [isLegibleAll, ih]

theorem isLegible_app {name : String} {as : List Ty} :
    (app name as).isLegible ↔ Nameable name ∧ ∀ a ∈ as, a.isLegible := by
  simp [isLegible, isLegibleAll_eq]

theorem nameable_of_isLegible {t : Ty} (legible : t.isLegible) : Nameable (Descriptor.refName t) := by
  refine Descriptor.nameable_refName fun name given => ?_
  cases t with
  | named _ | host _ =>
    cases given
    exact of_decide_eq_true legible
  | app _ as =>
    cases given
    exact of_decide_eq_true (Bool.and_eq_true_iff.1 legible).1
  | _ => cases given

theorem isLegible_split {t : Ty} (legible : t.isLegible) (n : Nat) :
    (∀ p ∈ (t.split n).1, p.isLegible) ∧ (t.split n).2.isLegible := by
  induction n generalizing t with
  | zero =>
    have all : t.split 0 = ([], t) := by cases t <;> rfl
    rw [all]
    exact ⟨List.forall_mem_nil _, legible⟩
  | succ n ih =>
    cases t with
    | fn a b =>
      obtain ⟨first, rest⟩ := Bool.and_eq_true_iff.1 legible
      obtain ⟨params, last⟩ := ih rest
      exact ⟨List.forall_mem_cons.2 ⟨first, params⟩, last⟩
    | _ => exact ⟨List.forall_mem_nil _, legible⟩

theorem isLegible_body {t : Ty} (legible : t.isLegible) : t.body.isLegible := by
  cases t <;> exact legible

/-- Legible and without quantifiers. -/
structure Regular (t : Ty) : Prop where
  mono : t.isMono
  legible : t.isLegible

theorem regular_list {a : Ty} : (list a).Regular ↔ a.Regular :=
  ⟨fun h => ⟨h.mono, h.legible⟩, fun h => ⟨h.mono, h.legible⟩⟩

theorem regular_fn {a b : Ty} : (fn a b).Regular ↔ a.Regular ∧ b.Regular := by
  constructor
  · intro h
    obtain ⟨mono, mono'⟩ := Bool.and_eq_true_iff.1 h.mono
    obtain ⟨legible, legible'⟩ := Bool.and_eq_true_iff.1 h.legible
    exact ⟨⟨mono, legible⟩, mono', legible'⟩
  · rintro ⟨first, second⟩
    exact ⟨Bool.and_eq_true_iff.2 ⟨first.mono, second.mono⟩,
      Bool.and_eq_true_iff.2 ⟨first.legible, second.legible⟩⟩

theorem regular_result {a b : Ty} : (result a b).Regular ↔ a.Regular ∧ b.Regular :=
  Iff.trans ⟨fun h => ⟨h.mono, h.legible⟩, fun h => ⟨h.mono, h.legible⟩⟩ (regular_fn (a := a) (b := b))

theorem regular_app {name : String} {as : List Ty} :
    (app name as).Regular ↔ Nameable name ∧ ∀ a ∈ as, a.Regular := by
  have mono : (app name as).isMono ↔ ∀ a ∈ as, a.isMono := by simp [isMono, isMonoAll_eq]
  constructor
  · intro h
    obtain ⟨named, each⟩ := isLegible_app.1 h.legible
    exact ⟨named, fun a member => ⟨mono.1 h.mono a member, each a member⟩⟩
  · rintro ⟨named, each⟩
    exact ⟨mono.2 fun a member => (each a member).mono,
      isLegible_app.2 ⟨named, fun a member => (each a member).legible⟩⟩

variable {t : Ty} {σ : Assignment}

/-- A type with its variables put for is regular exactly if it is legible itself and what is put for each
is regular. -/
theorem regular_assign (mono : t.isMono) :
    (t.assign σ).Regular ↔ t.Regular ∧ ∀ o ∈ t.occurrences, (σ.get o).Regular := by
  induction t using induct with
  | int | double | string | bool | unit | named | host =>
    exact ⟨fun h => ⟨h, nofun⟩, fun h => h.1⟩
  | var id | num id =>
    simp only [assign, occurrences, List.forall_mem_singleton]
    exact ⟨fun h => ⟨⟨rfl, rfl⟩, h⟩, fun h => h.2⟩
  | list a ih =>
    rw [assign, regular_list, regular_list, ih mono]
    rfl
  | result a b iha ihb =>
    obtain ⟨monoA, monoB⟩ := Bool.and_eq_true_iff.1 mono
    rw [assign, regular_result, regular_result, iha monoA, ihb monoB, occurrences, List.forall_mem_append,
      and_and_and_comm]
  | fn a b iha ihb =>
    obtain ⟨monoA, monoB⟩ := Bool.and_eq_true_iff.1 mono
    rw [assign, regular_fn, regular_fn, iha monoA, ihb monoB, occurrences, List.forall_mem_append,
      and_and_and_comm]
  | scheme vars a => cases mono
  | app name as ih =>
    have monos : ∀ a ∈ as, a.isMono := List.all_eq_true.1 ((isMonoAll_eq as).symm.trans mono)
    rw [assign, assignAll_eq, regular_app, regular_app, occurrences, occurrencesAll_eq, List.forall_mem_map,
      and_assoc]
    refine and_congr_right fun _ => ⟨fun each => ⟨fun a member => ?_, fun o inside => ?_⟩, fun each a member => ?_⟩
    · exact ((ih a member (monos a member)).1 (each a member)).1
    · obtain ⟨a, member, occurs⟩ := List.mem_flatMap.1 inside
      exact ((ih a member (monos a member)).1 (each a member)).2 o occurs
    · exact (ih a member (monos a member)).2
        ⟨each.1 a member, fun o occurs => each.2 o (List.mem_flatMap.2 ⟨a, member, occurs⟩)⟩

/-! ### Types that are held by reference -/

def Boxed (t : Ty) : Prop := ∀ ρ : Assignment, Rep.ofTy (t.assign ρ) = .ok .ref

theorem boxed_fn (a b : Ty) : (fn a b).Boxed := fun _ => rfl

theorem boxed_named (name : String) : (named name).Boxed := fun _ => rfl

theorem boxed_app (name : String) (as : List Ty) : (app name as).Boxed := fun _ => rfl

/-! ### What types are made of -/

variable {m : Mapping}

theorem isLegible_list {a : Ty} (legible : a.isLegible) : (list a).isLegible := legible

theorem isLegible_fn {a b : Ty} (first : a.isLegible) (second : b.isLegible) : (fn a b).isLegible :=
  Bool.and_eq_true_iff.2 ⟨first, second⟩

theorem isLegible_result {a b : Ty} (first : a.isLegible) (second : b.isLegible) : (result a b).isLegible :=
  Bool.and_eq_true_iff.2 ⟨first, second⟩

theorem isLegible_part {p : Ty} (legible : t.isLegible) (part : p ∈ t.parts) : p.isLegible := by
  cases t with
  | list a | scheme vars a =>
    rw [List.mem_singleton.1 part]
    exact legible
  | result a b | fn a b =>
    obtain ⟨first, second⟩ := Bool.and_eq_true_iff.1 legible
    rcases List.mem_cons.1 part with rfl | part
    · exact first
    · rw [List.mem_singleton.1 part]
      exact second
  | app name as => exact (isLegible_app.1 legible).2 p part
  | _ => cases part

theorem closed_isLegible : Closed {t | t.isLegible} := fun _ legible _ part => isLegible_part legible part

theorem isLegible_ofVar (id : VarId) (numeric : Bool) : (ofVar id numeric).isLegible := by
  cases numeric <;> rfl

theorem isLegible_fns {params : List Ty} (each : ∀ p ∈ params, p.isLegible) (legible : t.isLegible) :
    (fns params t).isLegible := by
  induction params with
  | nil => exact legible
  | cons p params ih =>
    obtain ⟨first, rest⟩ := List.forall_mem_cons.1 each
    exact isLegible_fn first (ih rest)

theorem isLegible_replace (each : ∀ e ∈ m, e.2.isLegible) (legible : t.isLegible) : (t.replace m).isLegible := by
  induction t using induct generalizing m with
  | int | double | string | bool | unit | named | host => exact legible
  | var id | num id =>
    rw [replace]
    cases found : m.get? id with
    | none => rfl
    | some u => exact each _ (mem_of_lookup found)
  | list a ih => exact ih each legible
  | scheme vars a ih => exact ih (fun e member => each e (List.mem_of_mem_filter member)) legible
  | result a b iha ihb | fn a b iha ihb =>
    obtain ⟨first, second⟩ := Bool.and_eq_true_iff.1 legible
    exact Bool.and_eq_true_iff.2 ⟨iha each first, ihb each second⟩
  | app name as ih =>
    obtain ⟨named, all⟩ := isLegible_app.1 legible
    rw [replace, replaceAll_eq, isLegible_app, List.forall_mem_map]
    exact ⟨named, fun a member => ih a member each (all a member)⟩

theorem isLegible_instantiate (legible : t.isLegible) (last : VarId) : (t.instantiate last).1.isLegible := by
  cases t with
  | scheme vars body =>
    have fresh (vars : List VarId) (last : VarId) : ∀ e ∈ (freshMapping body vars last).1, e.2.isLegible := by
      induction vars generalizing last with
      | nil => exact List.forall_mem_nil _
      | cons v vars ih =>
        exact List.forall_mem_append.2 ⟨ih _, List.forall_mem_singleton.2 (isLegible_ofVar _ _)⟩
    exact isLegible_replace (fresh vars last) legible
  | _ => exact legible

theorem isLegible_dropIdle (legible : t.isLegible) : t.dropIdle.isLegible := by
  cases t with
  | scheme vars body =>
    unfold dropIdle
    dsimp only
    split <;> exact legible
  | _ => exact legible

theorem isLegible_mapVars {σ : Type} {f : σ → Ty → Ty × σ} {ok : σ → Prop}
    (each : ∀ s v, v.isLegible → ok s → (f s v).1.isLegible ∧ ok (f s v).2) (legible : t.isLegible) {s : σ}
    (start : ok s) : (mapVars f s t).1.isLegible ∧ ok (mapVars f s t).2 := by
  induction t using induct generalizing s with
  | int | double | string | bool | unit | named | host => exact ⟨legible, start⟩
  | var id | num id => exact each s _ rfl start
  | list a ih | scheme vars a ih => exact ih legible start
  | result a b iha ihb | fn a b iha ihb =>
    obtain ⟨here, there⟩ := Bool.and_eq_true_iff.1 legible
    obtain ⟨first, start⟩ := iha here start
    obtain ⟨second, done⟩ := ihb there start
    exact ⟨Bool.and_eq_true_iff.2 ⟨first, second⟩, done⟩
  | app name as ih =>
    obtain ⟨named, all⟩ := isLegible_app.1 legible
    have rebuilt : ∀ bs : List Ty, (∀ b ∈ bs, b ∈ as) → ∀ {s}, ok s →
        (∀ b ∈ (mapVarsAll f s bs).1, b.isLegible) ∧ ok (mapVarsAll f s bs).2 := by
      intro bs
      induction bs with
      | nil => exact fun _ _ good => ⟨List.forall_mem_nil _, good⟩
      | cons b bs rest =>
        intro members s good
        rw [List.forall_mem_cons] at members
        obtain ⟨first, good⟩ := ih b members.1 (all b members.1) good
        obtain ⟨others, done⟩ := rest members.2 good
        exact ⟨List.forall_mem_cons.2 ⟨first, others⟩, done⟩
    obtain ⟨each, done⟩ := rebuilt as (fun _ member => member) start
    exact ⟨isLegible_app.2 ⟨named, each⟩, done⟩

end Ty

/-! ### Substitutions -/

namespace Subst

def Legible (s : Subst) : Prop := s.Within {t | t.isLegible}

variable {s : Subst} {a b t : Ty}

namespace Legible

theorem resolveWithin (legible : s.Legible) (hops : Nat) (inside : t.isLegible) :
    (s.resolveWithin hops t).1.isLegible ∧ (s.resolveWithin hops t).2.Legible := by
  induction hops generalizing s t with
  | zero => exact ⟨inside, legible⟩
  | succ hops ih =>
    refine Ty.isLegible_mapVars (fun s v inside legible => ?_) inside legible
    obtain ⟨root, rest⟩ := prune_within legible inside
    dsimp only
    split
    · exact ⟨root, rest⟩
    · exact ih rest root

theorem resolve (legible : s.Legible) (inside : t.isLegible) :
    (s.resolve t).1.isLegible ∧ (s.resolve t).2.Legible := legible.resolveWithin _ inside

theorem bindVar (legible : s.Legible) (id : VarId) (inside : t.isLegible) : (s.bindVar id t).2.Legible := by
  have asked := occursWithin_within Ty.closed_isLegible (s.size + 1) id legible inside
  unfold Subst.bindVar
  split
  · exact legible
  · unfold occurs
    split
    · next run =>
      rw [run] at asked
      exact (resolve asked inside).2
    · next run =>
      rw [run] at asked
      exact Within.bind asked inside id

theorem bindNumeric (legible : s.Legible) (id : VarId) (inside : t.isLegible) :
    (s.bindNumeric id t).2.Legible := by
  unfold Subst.bindNumeric
  split
  · dsimp only
    split
    · exact legible
    · exact legible.bind inside id
  · exact legible.bind inside id
  · exact legible.bind inside id
  · exact legible

theorem unifyWithin (legible : s.Legible) (depth : Nat) (insideA : a.isLegible) (insideB : b.isLegible) :
    (s.unifyWithin depth a b).2.Legible := by
  induction depth generalizing s a b with
  | zero => exact legible
  | succ depth ih =>
    have pairs : ∀ (as bs : List Ty) (s : Subst), (∀ a ∈ as, a.isLegible) → (∀ b ∈ bs, b.isLegible) →
        s.Legible → (unifyPairs (Subst.unifyWithin depth) s as bs).2.Legible := by
      intro as
      induction as with
      | nil => exact fun _ _ _ _ legible => legible
      | cons a as rest =>
        intro bs s eachA eachB legible
        cases bs with
        | nil => exact legible
        | cons b bs =>
          obtain ⟨hereA, eachA⟩ := List.forall_mem_cons.1 eachA
          obtain ⟨hereB, eachB⟩ := List.forall_mem_cons.1 eachB
          exact andThen_preserves (ih legible hereA hereB) fun s legible => rest bs s eachA eachB legible
    obtain ⟨rootA, first⟩ := prune_within legible insideA
    rcases pruneA : s.prune a with ⟨a, s₁⟩
    rw [pruneA] at rootA first
    obtain ⟨rootB, second⟩ := prune_within first insideB
    rcases pruneB : s₁.prune b with ⟨b, s₂⟩
    rw [pruneB] at rootB second
    simp only [Subst.unifyWithin, pruneA, pruneB]
    split
    · exact bindVar second _ rootB
    · exact bindVar second _ rootA
    · exact bindNumeric second _ rootB
    · exact bindNumeric second _ rootA
    · obtain ⟨paramA, resultA⟩ := Bool.and_eq_true_iff.1 rootA
      obtain ⟨paramB, resultB⟩ := Bool.and_eq_true_iff.1 rootB
      exact andThen_preserves (ih second paramA paramB) fun s legible => ih legible resultA resultB
    · exact ih second rootA rootB
    · obtain ⟨okA, errA⟩ := Bool.and_eq_true_iff.1 rootA
      obtain ⟨okB, errB⟩ := Bool.and_eq_true_iff.1 rootB
      exact andThen_preserves (ih second okA okB) fun s legible => ih legible errA errB
    · split
      · exact pairs _ _ _ (Ty.isLegible_app.1 rootA).2 (Ty.isLegible_app.1 rootB).2 second
      · exact second
    · split <;> exact second
    · split <;> exact second
    all_goals exact second

theorem unify (legible : s.Legible) (insideA : a.isLegible) (insideB : b.isLegible) :
    (s.unify a b).2.Legible := legible.unifyWithin _ insideA insideB

end Legible
end Subst

end StackML
